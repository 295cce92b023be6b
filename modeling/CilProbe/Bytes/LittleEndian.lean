/-
CilProbe/Bytes/LittleEndian.lean

Numbers as bytes, least significant byte first.  `encode width` writes the low
`width` bytes of a number and `value` reads bytes back; on numbers that fit,
reading undoes writing (`value_encode`).
-/
namespace CilProbe.LittleEndian

/-! ### Writing and reading -/

/-- The low `width` bytes of a number, least significant first. -/
def encode : Nat → Nat → List UInt8
  | 0, _ => []
  | width + 1, n => UInt8.ofNat n :: encode width (n / 256)

/-- The number that the bytes stand for, least significant first. -/
def value : List UInt8 → Nat
  | [] => 0
  | b :: bs => b.toNat + 256 * value bs

/-! ### Laws -/

@[simp] theorem length_encode (width n : Nat) : (encode width n).length = width := by
  induction width generalizing n with
  | zero => rfl
  | succ width ih => simp [encode, ih]

theorem value_encode (width n : Nat) : value (encode width n) = n % Nat.pow 256 width := by
  induction width generalizing n with
  | zero => simp [encode, value, Nat.mod_one]
  | succ width ih =>
    have hlow : (UInt8.ofNat n).toNat = n % 256 := UInt8.toNat_ofNat'
    rw [encode, value, ih, hlow, Nat.pow_eq, Nat.pow_eq, Nat.pow_succ', Nat.mod_mul]

theorem value_lt (bs : List UInt8) : value bs < Nat.pow 256 bs.length := by
  induction bs with
  | nil => simp [value]
  | cons b bs ih =>
    have hb := b.toNat_lt
    simp only [value, List.length_cons, Nat.pow_eq, Nat.pow_succ] at ih ⊢
    omega

theorem encode_value (bs : List UInt8) : encode bs.length (value bs) = bs := by
  induction bs with
  | nil => rfl
  | cons b bs ih =>
    have hb := b.toNat_lt
    have hdiv : (b.toNat + 256 * value bs) / 256 = value bs := by omega
    have hmod : UInt8.ofNat (b.toNat + 256 * value bs) = b := by
      apply UInt8.toNat_inj.mp
      rw [UInt8.toNat_ofNat']
      omega
    simp only [List.length_cons, value, encode, hdiv, hmod, ih]

/-! ### Fixed widths -/

/-- The two bytes of a 16-bit word. -/
def ofUInt16 (w : UInt16) : List UInt8 := encode 2 w.toNat

/-- The four bytes of a 32-bit word. -/
def ofUInt32 (w : UInt32) : List UInt8 := encode 4 w.toNat

/-- The eight bytes of a 64-bit word. -/
def ofUInt64 (w : UInt64) : List UInt8 := encode 8 w.toNat

/-- The four bytes of a signed 32-bit number. -/
def ofInt32 (i : Int32) : List UInt8 := ofUInt32 i.toUInt32

/-- The eight bytes of a signed 64-bit number. -/
def ofInt64 (i : Int64) : List UInt8 := ofUInt64 i.toUInt64

end CilProbe.LittleEndian
