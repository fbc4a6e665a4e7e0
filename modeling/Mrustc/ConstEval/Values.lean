import Mrustc.ConstEval.Bytes

/-! # Values of the constant evaluator

`TypeInfo` gives the kind and the width of a primitive type. A `ValueRef` is a place in an allocation whose
bytes may be uninitialised. The operands of a statement are looked at after `get_lval`.
-/

namespace Mrustc.ConstEval

open Hir (CoreType)
open Mir (Param Constant)
open Int128

/-- A target whose pointers are whole bytes. -/
structure Target extends Mir.Target where
  dvd_pointerBits : 8 ∣ pointerBits

/-- What ends an evaluation. Texts are given without the values printed after them. -/
inductive Failure
  | defer
  | assertion (text : String)
  | bug (text : String)
  | todo (text : String)
  | literal (bug : Mir.Monomorph.Bug)
  | outOfRange
  deriving DecidableEq, Repr

inductive TypeInfo.Kind
  | other | float | signed | unsigned
  deriving DecidableEq, Repr

structure TypeInfo where
  ty : TypeInfo.Kind
  bits : ℕ
  deriving DecidableEq, Repr

namespace TypeInfo

def forPrimitive (target : Target) : CoreType → TypeInfo
  | .i8 => ⟨.signed, 8⟩
  | .u8 => ⟨.unsigned, 8⟩
  | .i16 => ⟨.signed, 16⟩
  | .u16 => ⟨.unsigned, 16⟩
  | .i32 => ⟨.signed, 32⟩
  | .u32 => ⟨.unsigned, 32⟩
  | .i64 => ⟨.signed, 64⟩
  | .u64 => ⟨.unsigned, 64⟩
  | .i128 => ⟨.signed, 128⟩
  | .u128 => ⟨.unsigned, 128⟩
  | .isize => ⟨.signed, target.pointerBits⟩
  | .usize => ⟨.unsigned, target.pointerBits⟩
  | .char => ⟨.unsigned, 21⟩
  | .bool => ⟨.unsigned, 1⟩
  | .f32 => ⟨.float, 32⟩
  | .f64 => ⟨.float, 64⟩
  | .str => ⟨.other, 0⟩

/-- `mask(U128)`; no type has more than 128 bits. -/
def mask (ti : TypeInfo) (v : U128) : U128 :=
  if ti.bits < 64 then ⟨v.lo &&& ((1#64 <<< ti.bits) - 1), 0⟩
  else if ti.bits = 64 then ⟨v.lo, 0⟩
  else if ti.bits < 128 then v.and ((U128.shl ⟨1, 0⟩ ti.bits).sub ⟨1, 0⟩)
  else v

/-- `mask(S128)` negates, masks and negates again below zero. -/
def maskS (ti : TypeInfo) (v : S128) : U128 :=
  if v.cmp ⟨⟨0, 0⟩⟩ = .lt then (S128.neg ⟨ti.mask v.neg.inner⟩).inner else ti.mask v.inner

end TypeInfo

/-- A place in an allocation; `none` is an uninitialised byte. A null reference has no bytes. -/
structure ValueRef where
  storage : List (Option UInt8)
  isWritable : Bool
  ofs : ℕ
  deriving DecidableEq, Repr

namespace ValueRef

/-- `get_bytes` with the mask checked -/
def getBytes (val : ValueRef) (len : ℕ) : Option (List UInt8) :=
  if val.ofs + len ≤ val.storage.length then ((val.storage.drop val.ofs).take len).mapM id else none

def extReadBytes (val : ValueRef) (len : ℕ) : Except Failure (List UInt8) :=
  if len = 0 then .error (.assertion "")
  else (val.getBytes len).elim (.error (.assertion "Invalid read: ")) .ok

def readUint (target : Target) (val : ValueRef) (bits : ℕ) : Except Failure U128 := do
  let src ← val.extReadBytes ((bits + 7) / 8)
  .ok (if target.bigEndian then U128.fromBeBytes src else U128.fromLeBytes src)

def readSint (target : Target) (val : ValueRef) (bits : ℕ) : Except Failure S128 := do
  let src ← val.extReadBytes ((bits + 7) / 8)
  .ok (if target.bigEndian then S128.fromBeBytes src else S128.fromLeBytes src)

/-- `write_bytes`, and what is written through `ext_write_bytes` -/
def writeBytes (val : ValueRef) (data : List UInt8) : Except Failure ValueRef :=
  if ¬val.isWritable then .error (.assertion "Writing to read-only slot")
  else if data = [] then .ok val
  else if val.ofs + data.length ≤ val.storage.length then
    .ok { val with
      storage := val.storage.take val.ofs ++ data.map some ++ val.storage.drop (val.ofs + data.length) }
  else .error (.assertion "ofs+len <= length")

def writeByte (val : ValueRef) (v : UInt8) : Except Failure ValueRef := val.writeBytes [v]

def writeUint (target : Target) (val : ValueRef) (bits : ℕ) (v : U128) : Except Failure ValueRef :=
  val.writeBytes (if target.bigEndian then v.toBeBytes ((bits + 7) / 8) else v.toLeBytes ((bits + 7) / 8))

def writeSint (target : Target) (val : ValueRef) (bits : ℕ) (v : S128) : Except Failure ValueRef :=
  val.writeUint target bits v.inner

end ValueRef

/-- What the evaluator looks up for one function: the target, the bytes of named constants and of constant
generic arguments. The types `T` are monomorphised. -/
structure CallStackEntry (T P : Type) where
  target : Target
  asPrimitive : T → Option CoreType
  getConst : P → Except Failure (List UInt8)
  getValue : ℕ → Except Failure (List UInt8)

namespace CallStackEntry

variable {T P : Type} (state : CallStackEntry T P)

/-- `TypeInfo::for_type` -/
def typeInfo (ty : T) : TypeInfo :=
  ((state.asPrimitive ty).map (TypeInfo.forPrimitive state.target)).getD ⟨.other, 0⟩

/-- `EncodedLiteralSlice::read_uint` on a whole literal -/
def literalUint (bytes : List UInt8) : Except Failure U128 :=
  (Mir.Monomorph.readUint state.target.toTarget bytes 0).mapError .literal

def literalSint (bytes : List UInt8) : Except Failure S128 :=
  (Mir.Monomorph.readSint state.target.toTarget bytes 0).mapError .literal

def readParamUint (bits : ℕ) : Param P ValueRef → Except Failure U128
  | .lvalue val => val.readUint state.target bits
  | .borrow _ _ => .error (.bug "Expected an integer, got a MIR::Param::Borrow")
  | .constant (.const p) => do state.literalUint (← state.getConst p)
  | .constant (.generic binding) => do state.literalUint (← state.getValue binding)
  | .constant (.int v _) => .ok (U128.ofInt v)
  | .constant (.bool v) => .ok (if v then ⟨1, 0⟩ else ⟨0, 0⟩)
  | .constant (.uint v _) => .ok (U128.ofNat v)
  | .constant _ => .error (.assertion "Expected an integer, got ")

def readParamSint (bits : ℕ) : Param P ValueRef → Except Failure S128
  | .lvalue val => val.readSint state.target bits
  | .borrow _ _ => .error (.bug "Expected an integer, got a MIR::Param::Borrow")
  | .constant (.const p) => do state.literalSint (← state.getConst p)
  | .constant (.generic binding) => do state.literalSint (← state.getValue binding)
  | .constant (.int v _) => .ok (S128.ofInt v)
  | .constant _ => .error (.assertion "Expected an integer, got ")

end CallStackEntry

/-! ## Integers of a type -/

namespace TypeInfo

/-- The integer types: whole bytes, in one word or in two. -/
structure Integer (ti : TypeInfo) : Prop where
  kind : ti.ty = .signed ∨ ti.ty = .unsigned
  dvd : 8 ∣ ti.bits
  pos : 0 < ti.bits
  le : ti.bits ≤ 64 ∨ ti.bits = 128

variable {ti : TypeInfo} {z : ℤ}

theorem integer_forPrimitive (target : Target) {t : CoreType} (h : t ∉ [.f32, .f64, .bool, .char, .str]) :
    (forPrimitive target t).Integer := by
  have h8 := target.dvd_pointerBits
  have h16 := target.le_pointerBits
  have h64 := target.pointerBits_le
  cases t
  case f32 | f64 | bool | char | str => simp at h
  case usize => exact ⟨.inr rfl, h8, by simp only [forPrimitive]; omega, .inl h64⟩
  case isize => exact ⟨.inl rfl, h8, by simp only [forPrimitive]; omega, .inl h64⟩
  case u8 | u16 | u32 | u64 | u128 =>
    exact ⟨.inr rfl, by simp [forPrimitive], by simp [forPrimitive], by simp [forPrimitive]⟩
  case i8 | i16 | i32 | i64 | i128 =>
    exact ⟨.inl rfl, by simp [forPrimitive], by simp [forPrimitive], by simp [forPrimitive]⟩

namespace Integer

variable (h : ti.Integer)
include h

theorem le_bits : ti.bits ≤ 128 := h.le.elim (fun h => h.trans (by norm_num)) fun h => h.le

/-- The number of bytes. -/
theorem bytes_eq : (ti.bits + 7) / 8 = ti.bits / 8 := by
  obtain ⟨n, hn⟩ := h.dvd
  omega

theorem bits_eq : 8 * (ti.bits / 8) = ti.bits := Nat.mul_div_cancel' h.dvd

theorem bytes_pos : 0 < ti.bits / 8 := by
  obtain ⟨n, hn⟩ := h.dvd
  have := h.pos
  omega

theorem bytes_le : ti.bits / 8 ≤ 16 := by
  have := h.le_bits
  omega

theorem ne_unsigned : ti.ty ≠ .unsigned ↔ ti.ty = .signed := by
  rcases h.kind with hk | hk <;> simp [hk]

end Integer

/-- The range of the type. -/
def Fits (ti : TypeInfo) (z : ℤ) : Prop :=
  if ti.ty = .signed then -2 ^ (ti.bits - 1) ≤ z ∧ z < 2 ^ (ti.bits - 1) else 0 ≤ z ∧ z < 2 ^ ti.bits

instance decidableFits (ti : TypeInfo) (z : ℤ) : Decidable (ti.Fits z) := by
  unfold Fits
  infer_instance

/-- The value of the type with the same low bits. -/
def wrap (ti : TypeInfo) (z : ℤ) : ℤ := if ti.ty = .signed then z.bmod (2 ^ ti.bits) else z % 2 ^ ti.bits

end TypeInfo

namespace ValueRef

/-- The `n` bytes at the place are initialised and stand for `v`. -/
def Holds (target : Target) (val : ValueRef) (n v : ℕ) : Prop :=
  ∃ src, val.getBytes n = some src ∧ src.length = n ∧ Mir.Monomorph.bytesValue target.bigEndian src = v

/-- `n` bytes can be written to the place. -/
def Room (val : ValueRef) (n : ℕ) : Prop := val.isWritable = true ∧ val.ofs + n ≤ val.storage.length

/-- The places differ at most in the `n` bytes that are written. -/
def SameElsewhere (val val' : ValueRef) (n : ℕ) : Prop :=
  val'.ofs = val.ofs ∧ val'.isWritable = val.isWritable ∧ val'.storage.length = val.storage.length ∧
    ∀ i, i < val.ofs ∨ val.ofs + n ≤ i → val'.storage[i]? = val.storage[i]?

section Bytes

variable {target : Target} {val val' : ValueRef} {bits n v : ℕ} {u : U128} {data : List UInt8}

theorem mapM_some (data : List UInt8) : data.mapM some = some data := by
  induction data with
  | nil => rfl
  | cons b data ih => simp [ih]

theorem Holds.unique (h : val.Holds target n v) {v' : ℕ} (h' : val.Holds target n v') : v = v' := by
  obtain ⟨src, hsrc, -, rfl⟩ := h
  obtain ⟨src', hsrc', -, rfl⟩ := h'
  obtain rfl := Option.some.inj (hsrc.symm.trans hsrc')
  rfl

theorem Holds.lt (h : val.Holds target n v) : v < 2 ^ (8 * n) := by
  obtain ⟨src, -, rfl, rfl⟩ := h
  exact Mir.Monomorph.bytesValue_lt _ _

theorem extReadBytes_of_holds (hn : 0 < n) (h : val.Holds target n v) :
    ∃ src, val.extReadBytes n = .ok src ∧ src.length = n ∧
      Mir.Monomorph.bytesValue target.bigEndian src = v := by
  obtain ⟨src, hsrc, hlen, hv⟩ := h
  exact ⟨src, by rw [extReadBytes, if_neg hn.ne', hsrc]; rfl, hlen, hv⟩

theorem toNat_fromBytes (hlen : data.length ≤ 16) :
    (if target.bigEndian then U128.fromBeBytes data else U128.fromLeBytes data).toNat =
      Mir.Monomorph.bytesValue target.bigEndian data := by
  cases target.bigEndian
  · exact toNat_fromLeBytes hlen
  · exact toNat_fromBeBytes hlen

theorem readUint_of_holds (hbits : (bits + 7) / 8 = n) (hn : 0 < n ∧ n ≤ 16) (h : val.Holds target n v) :
    val.readUint target bits = .ok (U128.ofInt v) := by
  obtain ⟨src, hread, hlen, rfl⟩ := extReadBytes_of_holds hn.1 h
  have hval := @toNat_fromBytes target src (by omega)
  rw [readUint, hbits, hread, ← hval, S128.ofInt_toNat]
  rfl

theorem readSint_of_holds (hbits : (bits + 7) / 8 = n) (hn : 0 < n ∧ n ≤ 16) (h : val.Holds target n v) :
    val.readSint target bits = .ok (S128.ofInt ((v : ℤ).bmod (2 ^ (8 * n)))) := by
  obtain ⟨src, hread, hlen, hv⟩ := extReadBytes_of_holds hn.1 h
  have hval := @toNat_fromBytes target src (by omega)
  have hlt := Mir.Monomorph.bytesValue_lt target.bigEndian src
  rw [hlen] at hlt
  have hsext := toInt_signExtend hn (hval.symm ▸ hlt)
  have hfrom : (if target.bigEndian then S128.fromBeBytes src else S128.fromLeBytes src) =
      S128.signExtend (if target.bigEndian then U128.fromBeBytes src else U128.fromLeBytes src) n := by
    cases target.bigEndian <;> simp only [S128.fromBeBytes, S128.fromLeBytes, hlen] <;> rfl
  rw [hval, hv] at hsext
  rw [readSint, hbits, hread, ← hsext, S128.ofInt_toInt, ← hfrom]
  rfl

theorem getBytes_write (hofs : val.ofs ≤ val.storage.length) :
    ({ val with storage := val.storage.take val.ofs ++ data.map some ++
      val.storage.drop (val.ofs + data.length) } : ValueRef).getBytes data.length = some data := by
  have htake : (val.storage.take val.ofs).length = val.ofs := by simpa using hofs
  rw [getBytes, if_pos (by simp; omega)]
  rw [List.append_assoc, List.drop_append_of_le_length htake.ge]
  simp [mapM_some]

/-- A write of `n` bytes that fits is read back, and keeps the other bytes. -/
theorem writeBytes_of_room (hpos : data ≠ []) (h : val.Room data.length) :
    ∃ val', val.writeBytes data = .ok val' ∧ val'.getBytes data.length = some data ∧
      val.SameElsewhere val' data.length := by
  obtain ⟨hw, hroom⟩ := h
  refine ⟨_, by rw [writeBytes, if_neg (by simp [hw]), if_neg hpos, if_pos hroom],
    getBytes_write (by omega), rfl, rfl, by simp; omega, ?_⟩
  intro i hi
  have htake : (val.storage.take val.ofs).length = val.ofs := by simp; omega
  simp only [List.append_assoc]
  rcases hi with hi | hi
  · rw [List.getElem?_append_left (by omega), List.getElem?_take_of_lt hi]
  · rw [List.getElem?_append_right (by omega), List.getElem?_append_right (by simp; omega),
      List.getElem?_drop]
    congr 1
    simp
    omega

/-- The outcome of an operation that writes `v` to `n` bytes at `dst` and nothing else. -/
def Writes (target : Target) (dst : ValueRef) (n v : ℕ) (res : Except Failure ValueRef) : Prop :=
  ∃ dst', res = .ok dst' ∧ dst'.Holds target n v ∧ dst.SameElsewhere dst' n

theorem writes_writeUint (hbits : (bits + 7) / 8 = n) (hn : 0 < n ∧ n ≤ 16) (hroom : val.Room n) :
    Writes target val n (u.toNat % 2 ^ (8 * n)) (val.writeUint target bits u) := by
  have hlen : (if target.bigEndian then u.toBeBytes n else u.toLeBytes n).length = n := by
    cases target.bigEndian
    · exact length_toLeBytes u hn.2
    · exact length_toBeBytes u hn.2
  have hval : Mir.Monomorph.bytesValue target.bigEndian
      (if target.bigEndian then u.toBeBytes n else u.toLeBytes n) = u.toNat % 2 ^ (8 * n) := by
    cases target.bigEndian
    · exact bytesValue_toLeBytes u hn.2
    · exact bytesValue_toBeBytes u hn.2
  rw [writeUint, hbits]
  generalize (if target.bigEndian then u.toBeBytes n else u.toLeBytes n) = data at hlen hval ⊢
  subst hlen
  obtain ⟨val', hwrite, hget, hsame⟩ := writeBytes_of_room (List.ne_nil_of_length_pos hn.1) hroom
  exact ⟨val', hwrite, ⟨data, hget, rfl, hval⟩, hsame⟩

/-- What is written is the value modulo the range of the bytes. -/
theorem writes_writeUint_iff (hbits : (bits + 7) / 8 = n) (hn : 0 < n ∧ n ≤ 16) (hroom : val.Room n) :
    Writes target val n v (val.writeUint target bits u) ↔ u.toNat % 2 ^ (8 * n) = v := by
  have hw := @writes_writeUint target val bits n u hbits hn hroom
  constructor
  · rintro ⟨val₁, h1, hholds₁, -⟩
    obtain ⟨val₂, h2, hholds₂, -⟩ := hw
    obtain rfl := Except.ok.inj (h1.symm.trans h2)
    exact hholds₂.unique hholds₁
  · rintro rfl
    exact hw

end Bytes

end ValueRef

/-! ## Operands -/

section Operands

variable {T P : Type} {state : CallStackEntry T P} {ti : TypeInfo} {p : Param P ValueRef} {z : ℤ}

/-- The operand has the integer type and the value `z`. -/
inductive Denotes (state : CallStackEntry T P) (ti : TypeInfo) : Param P ValueRef → ℤ → Prop
  | lvalue {val : ValueRef} {z : ℤ} (hfits : ti.Fits z)
      (h : val.Holds state.target (ti.bits / 8) (z % 2 ^ ti.bits).toNat) : Denotes state ti (.lvalue val) z
  | int {z : ℤ} {t : CoreType} (hfits : ti.Fits z) (hty : ti.ty = .signed) :
      Denotes state ti (.constant (.int z t)) z
  | uint {n : ℕ} {t : CoreType} (hfits : ti.Fits n) (hty : ti.ty = .unsigned) :
      Denotes state ti (.constant (.uint n t)) n
  | const {path : P} {bytes : List UInt8} {z : ℤ} (hfits : ti.Fits z) (hget : state.getConst path = .ok bytes)
      (hlen : bytes.length = ti.bits / 8)
      (h : Mir.Monomorph.bytesValue state.target.bigEndian bytes = (z % 2 ^ ti.bits).toNat) :
      Denotes state ti (.constant (.const path)) z
  | generic {binding : ℕ} {bytes : List UInt8} {z : ℤ} (hfits : ti.Fits z)
      (hget : state.getValue binding = .ok bytes) (hlen : bytes.length = ti.bits / 8)
      (h : Mir.Monomorph.bytesValue state.target.bigEndian bytes = (z % 2 ^ ti.bits).toNat) :
      Denotes state ti (.constant (.generic binding)) z

theorem Denotes.fits (h : Denotes state ti p z) : ti.Fits z := by
  cases h <;> assumption

/-- The value that `read_param_uint` gives for an operand: a signed constant is not cut to its width. -/
def asUint (ti : TypeInfo) (p : Param P ValueRef) (z : ℤ) : ℤ :=
  match p with
  | .constant (.int _ _) => z
  | _ => z % 2 ^ ti.bits

theorem literalUint_eq {bytes : List UInt8} (hlen : bytes.length ≤ 16) :
    state.literalUint bytes = .ok (U128.ofInt (Mir.Monomorph.bytesValue state.target.bigEndian bytes)) := by
  obtain ⟨v, hread, hv⟩ := Mir.Monomorph.readUint_eq state.target.toTarget hlen
  have hzero : Mir.Monomorph.readUint state.target.toTarget bytes 0 =
      Mir.Monomorph.readUint state.target.toTarget bytes bytes.length := by
    simp [Mir.Monomorph.readUint]
  rw [CallStackEntry.literalUint, hzero, hread, ← hv, S128.ofInt_toNat]
  rfl

theorem literalSint_eq {bytes : List UInt8} (h0 : 0 < bytes.length) (hlen : bytes.length ≤ 16) :
    state.literalSint bytes = .ok (S128.ofInt
      ((Mir.Monomorph.bytesValue state.target.bigEndian bytes : ℤ).bmod (2 ^ (8 * bytes.length)))) := by
  obtain ⟨v, hread, hv⟩ := Mir.Monomorph.readSint_eq state.target.toTarget h0 hlen
  have hzero : Mir.Monomorph.readSint state.target.toTarget bytes 0 =
      Mir.Monomorph.readSint state.target.toTarget bytes bytes.length := by
    simp [Mir.Monomorph.readSint]
  rw [CallStackEntry.literalSint, hzero, hread, ← hv, S128.ofInt_toInt]
  rfl

theorem toNat_emod (ti : TypeInfo) (z : ℤ) : (((z % 2 ^ ti.bits).toNat : ℕ) : ℤ) = z % 2 ^ ti.bits :=
  Int.toNat_of_nonneg (Int.emod_nonneg _ (by positivity))

variable (hti : ti.Integer)
include hti

theorem readParamUint_of_denotes (h : Denotes state ti p z) :
    state.readParamUint ti.bits p = .ok (U128.ofInt (asUint ti p z)) := by
  have hpos := hti.bytes_pos
  have hle := hti.bytes_le
  cases h with
  | lvalue hfits h =>
    rw [CallStackEntry.readParamUint, ValueRef.readUint_of_holds hti.bytes_eq ⟨hpos, hle⟩ h, toNat_emod]
    rfl
  | int hfits hty => rfl
  | uint hfits hty =>
    rw [TypeInfo.Fits, if_neg (by simp [hty])] at hfits
    simp only [CallStackEntry.readParamUint, S128.ofNat_eq_ofInt, asUint, Int.emod_eq_of_lt hfits.1 hfits.2]
  | const hfits hget hlen h =>
    simp only [CallStackEntry.readParamUint, hget, bind, Except.bind]
    rw [literalUint_eq (by omega), h, toNat_emod]
    rfl
  | generic hfits hget hlen h =>
    simp only [CallStackEntry.readParamUint, hget, bind, Except.bind]
    rw [literalUint_eq (by omega), h, toNat_emod]
    rfl

/-- An operand of an unsigned type is read as its value. -/
theorem readParamUint_of_unsigned (hty : ti.ty = .unsigned) (h : Denotes state ti p z) :
    state.readParamUint ti.bits p = .ok (U128.ofInt z) := by
  have hz := h.fits
  rw [TypeInfo.Fits, if_neg (by simp [hty])] at hz
  rw [readParamUint_of_denotes hti h]
  cases h with
  | int hfits hty' => rfl
  | lvalue | uint | const | generic => simp only [asUint, Int.emod_eq_of_lt hz.1 hz.2]

theorem bmod_of_fits (hty : ti.ty = .signed) (hfits : ti.Fits z) : (z % 2 ^ ti.bits).bmod (2 ^ ti.bits) = z := by
  obtain ⟨k, hk⟩ := Nat.exists_eq_succ_of_ne_zero hti.pos.ne'
  have hcast : (2 ^ ti.bits : ℤ) = ((2 ^ ti.bits : ℕ) : ℤ) := by push_cast; rfl
  have hpow : (2 : ℤ) ^ (k + 1) = 2 * 2 ^ k := pow_succ' 2 k
  rw [TypeInfo.Fits, if_pos hty, hk, Nat.succ_eq_add_one, Nat.add_sub_cancel] at hfits
  rw [hcast, Int.emod_bmod, hk, Nat.succ_eq_add_one]
  apply Int.bmod_eq_of_le <;> push_cast <;> omega

theorem readParamSint_of_denotes (hty : ti.ty = .signed) (h : Denotes state ti p z) :
    state.readParamSint ti.bits p = .ok (S128.ofInt z) := by
  have hpos := hti.bytes_pos
  have hle := hti.bytes_le
  have hmod := bmod_of_fits hti hty h.fits
  cases h with
  | lvalue hfits h =>
    rw [CallStackEntry.readParamSint, ValueRef.readSint_of_holds hti.bytes_eq ⟨hpos, hle⟩ h, toNat_emod,
      hti.bits_eq, hmod]
  | int hfits hty => rfl
  | uint hfits hty' => exact absurd (hty.symm.trans hty') (by decide)
  | const hfits hget hlen h =>
    simp only [CallStackEntry.readParamSint, hget, bind, Except.bind]
    rw [literalSint_eq (by omega) (by omega), h, toNat_emod, hlen, hti.bits_eq, hmod]
  | generic hfits hget hlen h =>
    simp only [CallStackEntry.readParamSint, hget, bind, Except.bind]
    rw [literalSint_eq (by omega) (by omega), h, toNat_emod, hlen, hti.bits_eq, hmod]

end Operands

end Mrustc.ConstEval
