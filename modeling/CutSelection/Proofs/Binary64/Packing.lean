import Mathlib
import CutSelection.Proofs.Binary64.Rounding

/-!
What an operation leaves in memory. A number that has the shape that rounding gives it survives
being packed into a word, apart from an overflow, and every word holds a number of that shape. Nor
does a word change when the number it holds is packed again.
-/

namespace CutSelection
namespace Binary64

open Float.Model UnpackedFloat

def InRange : UnpackedFloat → Prop
  | .finite _ _ e _ => e ≤ 971
  | _ => True

/-- Numbers from the overflow on are infinite. -/
def clip : UnpackedFloat → UnpackedFloat
  | .finite s m e h => if e ≤ 971 then .finite s m e h else .infinity s
  | f => f

theorem clip_of_inRange {f : UnpackedFloat} (h : InRange f) : clip f = f := by
  cases f with
  | finite s m e hm => exact if_pos h
  | _ => rfl

theorem clip_eq_zero_iff {f : UnpackedFloat} {s : Sign} : clip f = .zero s ↔ f = .zero s := by
  cases f with
  | finite s' m e hm =>
    rw [clip]
    split <;> simp
  | _ => exact Iff.rfl

theorem toNat_implicit (m : BitVec 52) : (1#1 ++ m).toNat = 2 ^ 52 + m.toNat := by
  rw [BitVec.toNat_append, ← Nat.shiftLeft_add_eq_or_of_lt m.isLt]
  rfl

def decode (s : Sign) (e : BitVec 11) (m : BitVec 52) : UnpackedFloat :=
  if e = -1#11 then if m = 0#52 then .infinity s else .notANumber
  else if e = 0#11 then
    if h : m = 0#52 then .zero s
    else .finite s m.toNat (e.toNat - 1075 + 1)
      (by simpa [BitVec.toNat_pos, BitVec.pos_iff_ne_zero])
  else .finite s (1#1 ++ m).toNat (e.toNat - 1075) (by rw [toNat_implicit]; omega)

theorem unpack_eq (b : BitVec Format.binary64.numBits) : UnpackedFloat.unpack Format.binary64 b =
    decode (Sign.ofBitVec (unpackSign b)) (unpackExponent b) (unpackMantissa b) := rfl

theorem unpackSign_packComponents {spec : Format} (s : Sign) (e : BitVec spec.exponentBits)
    (m : BitVec spec.mantissaBitsWithoutImplicit) :
    unpackSign (packComponents spec s e m) = s.toBitVec := by
  refine BitVec.eq_of_getLsbD_eq fun i hi => ?_
  obtain rfl : i = 0 := by omega
  simp [unpackSign, packComponents, BitVec.getLsbD_append, BitVec.getElem_append]

theorem unpack_packComponents (s : Sign) (e : BitVec 11) (m : BitVec 52) :
    UnpackedFloat.unpack Format.binary64 (packComponents Format.binary64 s e m) = decode s e m := by
  rw [unpack_eq, unpackSign_packComponents, unpackExponent_packComponents,
    unpackMantissa_packComponents]
  cases s <;> rfl

theorem canonical_decode (s : Sign) (e : BitVec 11) (m : BitVec 52) :
    Canonical (decode s e m) ∧ InRange (decode s e m) := by
  have hm := m.isLt
  have he := e.isLt
  rw [decode]
  split
  · split <;> exact ⟨trivial, trivial⟩
  · rename_i hi
    have hi' : e.toNat ≠ 2047 := fun h => hi (BitVec.eq_of_toNat_eq h)
    split
    · rename_i h0
      subst h0
      split
      · exact ⟨trivial, trivial⟩
      · exact ⟨⟨by omega, by decide, .inr rfl⟩, show (-1074 : Int) ≤ 971 by decide⟩
    · rename_i h0
      have h0' : e.toNat ≠ 0 := fun h => h0 (BitVec.eq_of_toNat_eq h)
      have hn := toNat_implicit m
      have hrange : (e.toNat : Int) - 1075 ≤ 971 := by omega
      exact ⟨⟨by omega, by omega, .inl (by omega)⟩, hrange⟩

theorem canonical_unpack (x : Float.Model) : Canonical x.unpack ∧ InRange x.unpack :=
  canonical_decode _ _ _

theorem decode_of_subnormal (s : Sign) {m : Nat} (hm : 0 < m) (h : m < 2 ^ 52) :
    decode s 0#11 (BitVec.ofNat 52 m) = .finite s m (-1074) hm := by
  have hn : (BitVec.ofNat 52 m).toNat = m := by rw [BitVec.toNat_ofNat, Nat.mod_eq_of_lt h]
  have h0 : BitVec.ofNat 52 m ≠ 0#52 := by
    intro heq
    rw [heq] at hn
    simp at hn
    omega
  simp [decode, h0, hn]

theorem decode_of_normal (s : Sign) {m e : Nat} (hm : 0 < m) (h : 2 ^ 52 ≤ m) (h' : m < 2 ^ 53)
    (he : 0 < e) (he' : e < 2047) :
    decode s (BitVec.ofNat 11 e) (BitVec.ofNat 52 m) = .finite s m (e - 1075) hm := by
  have hen : (BitVec.ofNat 11 e).toNat = e := by
    rw [BitVec.toNat_ofNat, Nat.mod_eq_of_lt (by omega)]
  have h0 : BitVec.ofNat 11 e ≠ 0#11 := by
    intro heq
    rw [heq] at hen
    simp at hen
    omega
  have hi : BitVec.ofNat 11 e ≠ -1#11 := by
    intro heq
    rw [heq] at hen
    simp at hen
    omega
  have hn : (1#1 ++ BitVec.ofNat 52 m).toNat = m := by
    rw [toNat_implicit, BitVec.toNat_ofNat]
    omega
  simp only [decode, hi, h0, hn, hen, if_false]

/-- Nothing but an overflow happens to a rounded number when it is stored. -/
theorem unpack_pack {f : UnpackedFloat} (hf : Canonical f) :
    (Float.Model.pack f).unpack = clip f := by
  change UnpackedFloat.unpack Format.binary64 (UnpackedFloat.pack Format.binary64 f) = clip f
  cases f with
  | notANumber => rfl
  | infinity s => cases s <;> rfl
  | zero s => cases s <;> rfl
  | finite s m e hm =>
    obtain ⟨hm53, he, hn⟩ := hf
    have hbias : (e + (Format.binary64.exponentBias : Int) +
        (Format.binary64.mantissaBitsWithoutImplicit : Int)).toNat = (e + 1075).toNat := by
      change (e + 1023 + 52).toNat = _
      omega
    rw [UnpackedFloat.pack, clip]
    dsimp only
    rw [hbias]
    by_cases hle : e ≤ 971
    · rw [if_neg (show ¬2 ^ 11 ≤ (e + 1075).toNat + 1 by omega), if_pos hle]
      by_cases hnormal : 2 ^ 52 ≤ m
      · have hlog : m.log2 + 1 = Format.binary64.mantissaBits := by
          change m.log2 + 1 = 53
          have h1 := (Nat.le_log2 (Nat.ne_of_gt hm)).mpr hnormal
          have h2 := (Nat.log2_lt (Nat.ne_of_gt hm)).mpr hm53
          omega
        rw [if_pos hlog, unpack_packComponents,
          decode_of_normal s hm hnormal hm53 (by omega) (by omega)]
        congr 1
        omega
      · have hlog : ¬m.log2 + 1 = Format.binary64.mantissaBits := by
          change ¬m.log2 + 1 = 53
          have h1 := (Nat.log2_lt (Nat.ne_of_gt hm) (k := 52)).mpr (by omega)
          omega
        obtain rfl := hn.resolve_left hnormal
        rw [if_neg hlog, unpack_packComponents]
        exact decode_of_subnormal s hm (by omega)
    · rw [if_pos (show 2 ^ 11 ≤ (e + 1075).toNat + 1 by omega), if_neg hle]
      cases s <;> rfl

theorem unpack_pack_of_inRange {f : UnpackedFloat} (h : Canonical f ∧ InRange f) :
    (Float.Model.pack f).unpack = f :=
  (unpack_pack h.1).trans (clip_of_inRange h.2)

theorem packComponents_unpack (b : BitVec Format.binary64.numBits) :
    packComponents Format.binary64 (Sign.ofBitVec (unpackSign b)) (unpackExponent b)
      (unpackMantissa b) = b := by
  have hsign : ∀ s : BitVec 1, (Sign.ofBitVec s).toBitVec = s := by decide
  simp only [packComponents, hsign, unpackSign, unpackExponent, unpackMantissa, BitVec.extractLsb]
  ext i hi
  grind

/-- The leading bit of a normal significand is not stored. -/
theorem pack_finite (s : Sign) {m e : Nat} (hm : 0 < m) (he : 0 < e) (he' : e < 2047) :
    UnpackedFloat.pack Format.binary64 (.finite s m (e - 1075) hm) =
      packComponents Format.binary64 s
        (if 2 ^ 52 ≤ m ∧ m < 2 ^ 53 then BitVec.ofNat 11 e else 0#11) (BitVec.ofNat 52 m) := by
  have hbias : ((e - 1075 : Int) + (Format.binary64.exponentBias : Int) +
      (Format.binary64.mantissaBitsWithoutImplicit : Int)).toNat = e := by
    change ((e : Int) - 1075 + 1023 + 52).toNat = _
    omega
  have hlog : m.log2 + 1 = Format.binary64.mantissaBits ↔ 2 ^ 52 ≤ m ∧ m < 2 ^ 53 := by
    change m.log2 + 1 = 53 ↔ _
    rw [← Nat.le_log2 (Nat.ne_of_gt hm), ← Nat.log2_lt (Nat.ne_of_gt hm)]
    omega
  rw [UnpackedFloat.pack]
  simp only [hbias, hlog]
  rw [if_neg (show ¬2 ^ 11 ≤ e + 1 by omega)]
  split <;> rfl

/-- The fields of a word are packed into the same word, apart from those of a value that is no
number. -/
theorem pack_decode {s : Sign} {e : BitVec 11} {m : BitVec 52} (h : e = -1#11 → m = 0#52) :
    UnpackedFloat.pack Format.binary64 (decode s e m) = packComponents Format.binary64 s e m := by
  have hm := m.isLt
  have he := e.isLt
  rw [decode]
  split
  · rename_i hi
    subst hi
    rw [if_pos (h rfl), h rfl]
    rfl
  · rename_i hi
    have hi' : e.toNat ≠ 2047 := fun h => hi (BitVec.eq_of_toNat_eq h)
    split
    · rename_i h0
      subst h0
      split
      · rename_i hm0
        subst hm0
        rfl
      · rename_i hm0
        have hpos : 0 < m.toNat := by simpa [BitVec.toNat_pos, BitVec.pos_iff_ne_zero]
        have hpack := pack_finite s hpos (e := 1) (by decide) (by decide)
        rw [if_neg (by omega)] at hpack
        simpa using hpack
    · rename_i h0
      have h0' : e.toNat ≠ 0 := fun h => h0 (BitVec.eq_of_toNat_eq h)
      have hn := toNat_implicit m
      have hmantissa : BitVec.ofNat 52 (1#1 ++ m).toNat = m := by
        refine BitVec.eq_of_toNat_eq ?_
        rw [BitVec.toNat_ofNat]
        omega
      rw [pack_finite s _ (by omega) (by omega), if_pos (by omega), hmantissa]
      simp

theorem pack_unpack_of_valid {b : BitVec Format.binary64.numBits} (h : Format.binary64.Valid b) :
    UnpackedFloat.pack Format.binary64 (UnpackedFloat.unpack Format.binary64 b) = b := by
  by_cases hnumber : unpackExponent b = -1#11 → unpackMantissa b = 0#52
  · rw [unpack_eq, pack_decode hnumber, packComponents_unpack]
  · obtain ⟨he, hm⟩ := Classical.not_imp.mp hnumber
    rw [h.eq_packedNaN he hm]
    rfl

/-- No word changes if its number is packed again. -/
theorem pack_unpack (x : Float.Model) : Float.Model.pack x.unpack = x := by
  obtain ⟨bits, hvalid⟩ := x
  simp only [Float.Model.pack, Float.Model.unpack, pack_unpack_of_valid hvalid]

end Binary64
end CutSelection
