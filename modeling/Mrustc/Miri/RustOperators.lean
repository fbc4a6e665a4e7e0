import Mrustc.Miri.RustArithmetic

/-! # Shifts, negations and the interpreter's operations as a whole -/

namespace Mrustc.Miri

open Mrustc.Int128

/-! ## Shifts -/

inductive Shift
  | shl | shr
  deriving DecidableEq, Repr

namespace Shift

def toBinOp : Shift → Mir.BinOp
  | .shl => .bitShl
  | .shr => .bitShr

/-- The shifted number. A shift to the right rounds down. -/
def exact (op : Shift) (x : ℤ) (n : ℕ) : ℤ :=
  match op with
  | .shl => x * 2 ^ n
  | .shr => x / 2 ^ n

/-- Rust refuses amounts outside the width. -/
def meant (op : Shift) (w : ℕ) (x s : ℤ) : Option ℤ :=
  if 0 ≤ s ∧ s < w then some (op.exact x s.toNat) else none

end Shift

/-- The operands of a shift for which the interpreter does what Rust does. -/
def ShiftSound (op : Shift) (t tr : RawType) (x s : ℤ) : Prop :=
  if tr.bits = 128 ∨ t = .i64 ∨ t = .i128 then ¬ (0 ≤ s ∧ s < t.bits)
  else t.bits < s ∨ 0 ≤ s ∧ s < t.bits ∧ (op = .shr → t.signed = true → 0 ≤ x ∨ s = 0)

/-- The amount taken from the right operand: its lowest eight bits, once it is not above the width. -/
theorem shiftAmount_eq {tr : RawType} (htr : tr.isInteger = true) (h128 : tr.bits ≠ 128) (m : ℕ)
    (r : BitVec tr.bits) : shiftAmount m ⟨tr, r⟩ =
      if valueOf tr.signed r ≤ m then .ok (BitVec.ofInt 8 (valueOf tr.signed r)) else .error .assertion := by
  have castU {w : ℕ} (hw : w = tr.bits) (hs : tr.signed = false) :
      checkCastU m (Value.read ⟨tr, r⟩ w) =
        if valueOf tr.signed r ≤ m then .ok (BitVec.ofInt 8 (valueOf tr.signed r)) else .error .assertion := by
    subst hw
    simp only [checkCastU, ensure, Value.read, BitVec.setWidth_eq, valueOf, hs, Bool.false_eq_true, if_false,
      Nat.cast_le]
    split_ifs
    · exact congrArg Except.ok (by simp)
    · rfl
  have castS {w : ℕ} (hw : w = tr.bits) (h8 : 8 ≤ w) (hs : tr.signed = true) :
      checkCastS m (Value.read ⟨tr, r⟩ w) =
        if valueOf tr.signed r ≤ m then .ok (BitVec.ofInt 8 (valueOf tr.signed r)) else .error .assertion := by
    subst hw
    simp only [checkCastS, ensure, Value.read, BitVec.setWidth_eq, valueOf, hs, if_true]
    split_ifs
    · exact congrArg Except.ok (BitVec.signExtend_eq_setWidth_of_le r h8).symm
    · rfl
  cases tr
  case u8 | u16 | u32 | u64 | usize => exact castU rfl rfl
  case i8 | i16 | i32 | i64 | isize => exact castS rfl (by decide) rfl
  case u128 | i128 => exact absurd rfl h128
  all_goals cases htr

theorem doShift_not_report {w : ℕ} (op : Mir.BinOp) (l : BitVec w) (n : ℕ) {f : Fault}
    (h : Ops.doShift op l n = .error f) : f.isReport = false := by
  unfold Ops.doShift at h
  split_ifs at h
  · cases h
    rfl
  · split at h <;> cases h
    rfl
  · split at h <;> cases h

/-- Shifts by less than the width, of an operand of a width that the interpreter has. -/
theorem doShift_eq {w n : ℕ} (hw : w ≤ 16 ∨ 32 ≤ w) (hn : n < w) (op : Shift) (l : BitVec w) :
    Ops.doShift op.toBinOp l n = .ok (BitVec.ofInt w (op.exact l.toNat n)) := by
  have hm : ¬ max w 32 ≤ n := by omega
  unfold Ops.doShift
  rw [if_neg hm]
  cases op with
  | shl =>
    have hnarrow : ¬ (w < 32 ∧ 2 ^ 32 ≤ l.toNat * 2 ^ n) := by
      rintro ⟨hlt, hle⟩
      have h₁ : l.toNat * 2 ^ n < 2 ^ 16 * 2 ^ 16 := by
        apply Nat.mul_lt_mul_of_lt_of_le
        · exact l.isLt.trans_le (Nat.pow_le_pow_right (by norm_num) (by omega))
        · exact Nat.pow_le_pow_right (by norm_num) (by omega)
        · norm_num
      omega
    simp only [Shift.toBinOp, if_neg hnarrow]
    apply congrArg Except.ok
    change l <<< n = BitVec.ofInt w ((l.toNat : ℤ) * 2 ^ n)
    have hc : (l.toNat : ℤ) * 2 ^ n = (l.toNat * 2 ^ n : ℕ) := by norm_cast
    rw [hc, BitVec.ofInt_natCast]
    apply BitVec.eq_of_toNat_eq
    rw [BitVec.toNat_shiftLeft, BitVec.toNat_ofNat, Nat.shiftLeft_eq]
  | shr =>
    apply congrArg Except.ok
    change l >>> n = BitVec.ofInt w ((l.toNat : ℤ) / 2 ^ n)
    have hc : (l.toNat : ℤ) / 2 ^ n = (l.toNat / 2 ^ n : ℕ) := by norm_cast
    rw [hc, BitVec.ofInt_natCast, ← Nat.shiftRight_eq_div_pow, ← BitVec.toNat_ushiftRight, BitVec.ofNat_toNat,
      BitVec.setWidth_eq]

/-- A logical shift of a signed operand is the arithmetic one for numbers that are not negative. -/
theorem shiftRight_signed_iff {w n : ℕ} (hn : n < w) (l : BitVec w) :
    BitVec.ofInt w ((l.toNat : ℤ) / 2 ^ n) = BitVec.ofInt w (l.toInt / 2 ^ n) ↔ 0 ≤ l.toInt ∨ n = 0 := by
  have hmem := (fits_signed w _).mp (valueOf_mem true l)
  change -2 ^ (w - 1) ≤ l.toInt ∧ l.toInt < 2 ^ (w - 1) at hmem
  have hlt := l.isLt
  have hw : (2 : ℤ) ^ w = 2 * 2 ^ (w - 1) := by rw [← pow_succ', Nat.sub_add_cancel (by omega)]
  have hnat : (l.toNat : ℤ) < 2 ^ w := by exact_mod_cast hlt
  constructor
  · intro h
    by_contra hc
    rcases not_or.mp hc with ⟨hneg, h0⟩
    have h2 : (2 : ℤ) ≤ 2 ^ n := by
      calc (2 : ℤ) = 2 ^ 1 := by norm_num
        _ ≤ 2 ^ n := pow_le_pow_right₀ (by norm_num) (by omega)
    have hq : (l.toNat : ℤ) / 2 ^ n < 2 ^ (w - 1) := by
      apply Int.ediv_lt_of_lt_mul (by omega)
      nlinarith
    have hq0 : 0 ≤ (l.toNat : ℤ) / 2 ^ n := by positivity
    have hd : l.toInt / 2 ^ n < 0 := Int.ediv_neg_of_neg_of_pos (by omega) (by omega)
    have hd' : -2 ^ (w - 1) ≤ l.toInt / 2 ^ n := by
      apply Int.le_ediv_of_mul_le (by omega)
      nlinarith
    have hi := congrArg BitVec.toInt h
    rw [PrimitiveSInt.result_toInt ((fits_signed w _).mpr ⟨by omega, hq⟩) (by omega),
      PrimitiveSInt.result_toInt ((fits_signed w _).mpr ⟨hd', by omega⟩) (by omega)] at hi
    omega
  · rintro (h | rfl)
    · have he : l.toInt = l.toNat := by
        have := BitVec.toInt_eq_toNat_cond l
        have hnw : 2 * l.toNat < 2 ^ w ∨ l.toInt = (l.toNat : ℤ) - (2 ^ w : ℕ) := by
          split_ifs at this <;> omega
        rcases hnw with hs | hs
        · rw [this, if_pos hs]
        · omega
      rw [he]
    · simp

theorem shiftValue_not_report {t : RawType} (ht : t.isInteger = true) (hi : t ≠ .i64 ∧ t ≠ .i128)
    (op : Mir.BinOp) (l : BitVec t.bits) (shift : BitVec 8) {f : Fault}
    (h : shiftValue op ⟨t, l⟩ shift = .error f) : f.isReport = false := by
  have map_error {w : ℕ} (l : BitVec w) (h : (Ops.doShift op l shift.toNat).map (Value.write t) = .error f) :
      f.isReport = false := by
    cases hs : Ops.doShift op l shift.toNat with
    | ok v =>
      rw [hs] at h
      cases h
    | error f' =>
      rw [hs] at h
      cases h
      exact doShift_not_report op l _ hs
  cases t
  case u128 => cases h
  case i64 => exact absurd rfl hi.1
  case i128 => exact absurd rfl hi.2
  case u8 | u16 | u32 | u64 | usize | i8 | i16 | i32 | isize => exact map_error _ h
  all_goals cases ht

/-- Shifts by less than the width, for the types that the switch lists. -/
theorem shiftValue_eq {t : RawType} (ht : t.isInteger = true) (hi : t ≠ .i64 ∧ t ≠ .i128) (op : Shift)
    (l : BitVec t.bits) {shift : BitVec 8} (hn : shift.toNat < t.bits) :
    shiftValue op.toBinOp ⟨t, l⟩ shift =
      .ok (Value.ofInt t (op.exact l.toNat shift.toNat)) := by
  have narrow {w : ℕ} (hw : w = t.bits) (hs : w ≤ 16 ∨ 32 ≤ w) :
      (Ops.doShift op.toBinOp (Value.read ⟨t, l⟩ w) shift.toNat).map (Value.write t) =
        .ok (Value.ofInt t (op.exact l.toNat shift.toNat)) := by
    rw [doShift_eq hs (hw ▸ hn), Value.read_toNat _ hw]
    exact congrArg Except.ok (Value.write_ofInt t hw _)
  cases t
  case u128 =>
    apply congrArg Except.ok
    have ha : (⟨shift.setWidth 64, 0⟩ : U128).toNat = shift.toNat := by
      rw [U128.toNat_low, BitVec.toNat_setWidth_of_le (by norm_num)]
    have hl : (U128.ofBits (Value.read ⟨.u128, l⟩ 128)).toNat = l.toNat := by
      rw [toNat_ofBits, Value.read_toNat _ (w := 128) rfl]
    have hv (v : U128) {n : ℕ} (hn : v.toNat = n % 2 ^ 128) :
        Value.write .u128 v.bits = Value.ofInt .u128 n := by
      have hb : v.bits = BitVec.ofInt 128 (n : ℤ) := by
        apply BitVec.eq_of_toNat_eq
        rw [U128.toNat_bits, hn, BitVec.ofInt_natCast, BitVec.toNat_ofNat]
      rw [hb]
      exact Value.write_ofInt .u128 (w := 128) rfl n
    cases op with
    | shl =>
      apply (hv _ (n := l.toNat * 2 ^ shift.toNat) _).trans
      · exact congrArg (Value.ofInt .u128) (by simp [Shift.exact])
      · exact (U128.toNat_shlWide _ _).trans (by rw [ha, hl])
    | shr =>
      apply (hv _ (n := l.toNat / 2 ^ shift.toNat) _).trans
      · exact congrArg (Value.ofInt .u128) (by simp [Shift.exact])
      · have hd : l.toNat / 2 ^ shift.toNat < 2 ^ 128 := (Nat.div_le_self _ _).trans_lt l.isLt
        exact (U128.toNat_shrWide _ _).trans (by rw [ha, hl, Nat.mod_eq_of_lt hd])
  case i64 => exact absurd rfl hi.1
  case i128 => exact absurd rfl hi.2
  case u8 | u16 | i8 | i16 => exact narrow rfl (Or.inl (by norm_num))
  case u32 | u64 | usize | i32 | isize => exact narrow rfl (Or.inr (by norm_num))
  all_goals cases ht

theorem ofInt_inj (t : RawType) (a b : ℤ) :
    Value.ofInt t a = Value.ofInt t b ↔ BitVec.ofInt t.bits a = BitVec.ofInt t.bits b := by
  simp [Value.ofInt]

/-- A number and its bits read without a sign stand for the same value. -/
theorem ofInt_valueOf {w : ℕ} (s : Bool) (v : BitVec w) : BitVec.ofInt w (valueOf s v) = v := by
  cases s <;> simp [valueOf]

theorem exact_right_iff {t : RawType} (op : Shift) (l : BitVec t.bits) {n : ℕ} (hn : n < t.bits) :
    Value.ofInt t (op.exact l.toNat n) = Value.ofInt t (op.exact (valueOf t.signed l) n) ↔
      (op = .shr → t.signed = true → 0 ≤ valueOf t.signed l ∨ n = 0) := by
  rw [ofInt_inj]
  cases op with
  | shl =>
    apply iff_of_true
    · change BitVec.ofInt _ ((l.toNat : ℤ) * 2 ^ n) = BitVec.ofInt _ (valueOf t.signed l * 2 ^ n)
      rw [BitVec.ofInt_mul, BitVec.ofInt_mul, ofInt_valueOf]
      simp
    · exact fun h => by cases h
  | shr =>
    cases hs : t.signed with
    | false => exact iff_of_true rfl (fun _ h => by cases h)
    | true => simpa [Shift.exact, valueOf] using shiftRight_signed_iff hn l

theorem shift_right_iff {t tr : RawType} (ht : t.isInteger = true) (htr : tr.isInteger = true) (op : Shift)
    (l : BitVec t.bits) (r : BitVec tr.bits) :
    Meets (binOp op.toBinOp ⟨t, l⟩ ⟨tr, r⟩)
        ((op.meant t.bits (valueOf t.signed l) (valueOf tr.signed r)).map (Value.ofInt t)) ↔
      ShiftSound op t tr (valueOf t.signed l) (valueOf tr.signed r) := by
  have h : binOp op.toBinOp ⟨t, l⟩ ⟨tr, r⟩ = shiftOp op.toBinOp ⟨t, l⟩ ⟨tr, r⟩ := by cases op <;> rfl
  have hsize : t.getSize * 8 = t.bits := rfl
  rw [h]
  unfold Shift.meant ShiftSound shiftOp
  generalize hs : valueOf tr.signed r = s
  by_cases h128 : tr.bits = 128
  · have ha : shiftAmount (t.getSize * 8) ⟨tr, r⟩ = .error .todo := by
      cases tr
      case u128 | i128 => rfl
      all_goals exact absurd h128 (by decide)
    rw [ha, if_pos (Or.inl h128)]
    split_ifs with hr
    · exact iff_of_false id (not_not.mpr hr)
    · exact iff_of_true rfl hr
  rw [shiftAmount_eq htr h128, hs, hsize]
  by_cases hi : t = .i64 ∨ t = .i128
  · rw [if_pos (Or.inr hi)]
    have hf : ∃ f : Fault, f.isReport = true ∧
        ((if s ≤ t.bits then .ok (BitVec.ofInt 8 s) else .error .assertion) >>= shiftValue op.toBinOp ⟨t, l⟩) =
          .error f := by
      split_ifs
      · rcases hi with rfl | rfl <;> exact ⟨.todo, rfl, rfl⟩
      · exact ⟨.assertion, rfl, rfl⟩
    rcases hf with ⟨f, hrep, hf⟩
    rw [hf]
    split_ifs with hr
    · exact iff_of_false id (not_not.mpr hr)
    · exact iff_of_true hrep hr
  rw [if_neg (not_or.mpr ⟨h128, hi⟩)]
  by_cases hle : s ≤ t.bits
  · rw [if_pos hle]
    change Meets (shiftValue op.toBinOp ⟨t, l⟩ (BitVec.ofInt 8 s)) _ ↔ _
    by_cases hr : 0 ≤ s ∧ s < t.bits
    · have hbits : t.bits ≤ 128 := by cases t <;> decide
      have hn : (BitVec.ofInt 8 s).toNat = s.toNat := by
        rw [BitVec.toNat_ofInt, Int.emod_eq_of_lt hr.1 (by norm_num; omega)]
      rw [if_pos hr, shiftValue_eq ht (not_or.mp hi) op l (by omega), hn]
      refine (exact_right_iff op l (by omega)).trans ?_
      have h0 : s.toNat = 0 ↔ s = 0 := by omega
      rw [h0]
      exact ⟨fun h' => Or.inr ⟨hr.1, hr.2, h'⟩, fun h' => (h'.resolve_left (by omega)).2.2⟩
    · rw [if_neg hr]
      apply iff_of_false
      · intro hm
        cases hv : shiftValue op.toBinOp ⟨t, l⟩ (BitVec.ofInt 8 s) with
        | ok v =>
          rw [hv] at hm
          exact hm
        | error f =>
          rw [hv] at hm
          exact absurd (shiftValue_not_report ht (not_or.mp hi) _ l _ hv) (by simpa [Meets] using hm)
      · omega
  · rw [if_neg hle, if_neg (by omega)]
    exact iff_of_true rfl (Or.inl (by omega))

/-! ## One operand -/

/-- The mathematical result. Rust negates signed numbers only. -/
def meantUnary (op : Mir.UniOp) (signed : Bool) (x : ℤ) : Option ℤ :=
  match op with
  | .inv => some (-x - 1)
  | .neg => if signed then some (-x) else none

/-- The operands of an operator for which the interpreter does what Rust does. -/
def UnarySound (op : Mir.UniOp) (t : RawType) (x : ℤ) : Prop :=
  match op with
  | .inv => t.bits ≠ 128
  | .neg => t.signed = true → t.bits < 32 ∨ t.bits ≠ 128 ∧ x ≠ -2 ^ (t.bits - 1)

theorem not_eq_ofInt {w : ℕ} (s : Bool) (v : BitVec w) : ~~~v = BitVec.ofInt w (-valueOf s v - 1) := by
  rw [sub_eq_add_neg, BitVec.ofInt_add, BitVec.ofInt_neg, BitVec.ofInt_neg, ofInt_valueOf, BitVec.not_eq_neg_add,
    ← sub_eq_add_neg]
  simp

theorem neg_eq_ofInt {w : ℕ} (s : Bool) (v : BitVec w) : -v = BitVec.ofInt w (-valueOf s v) := by
  rw [BitVec.ofInt_neg, ofInt_valueOf]

theorem valueOf_read {t : RawType} (v : BitVec t.bits) {w : ℕ} (hw : w = t.bits) (s : Bool) :
    valueOf s (Value.read ⟨t, v⟩ w) = valueOf s v := by
  subst hw
  simp [Value.read]

theorem inv_right {t : RawType} (ht : t.isInteger = true) (h128 : t.bits ≠ 128) (v : BitVec t.bits) :
    uniOp .inv ⟨t, v⟩ = .ok (Value.ofInt t (-valueOf t.signed v - 1)) := by
  have hw {w : ℕ} (hw : w = t.bits) :
      (.ok (Value.write t (~~~Value.read ⟨t, v⟩ w)) : Except Fault Value) =
        .ok (Value.ofInt t (-valueOf t.signed v - 1)) := by
    rw [not_eq_ofInt t.signed, Value.write_ofInt t hw, valueOf_read v hw]
  cases t
  case u128 | i128 => exact absurd rfl h128
  case u8 | u16 | u32 | u64 | usize | i8 | i16 | i32 | i64 | isize => exact hw rfl
  all_goals cases ht

theorem neg_narrow_right {t : RawType} (h : t = .i8 ∨ t = .i16) (v : BitVec t.bits) :
    uniOp .neg ⟨t, v⟩ = .ok (Value.ofInt t (-valueOf t.signed v)) := by
  have hw {w : ℕ} (hw : w = t.bits) :
      (.ok (Value.write t (-Value.read ⟨t, v⟩ w)) : Except Fault Value) =
        .ok (Value.ofInt t (-valueOf t.signed v)) := by
    rw [neg_eq_ofInt t.signed, Value.write_ofInt t hw, valueOf_read v hw]
  rcases h with rfl | rfl <;> exact hw rfl

theorem negate_right_iff {t : RawType} {w : ℕ} (hw : w = t.bits) (hs : t.signed = true)
    (v : BitVec t.bits) : Meets (negate ⟨t, v⟩ w) (some (Value.ofInt t (-valueOf t.signed v))) ↔
      valueOf t.signed v ≠ -2 ^ (t.bits - 1) := by
  have hv : (Value.read ⟨t, v⟩ w).toInt = valueOf t.signed v := by
    rw [Value.read_toInt _ hw, valueOf, hs, if_pos rfl]
  have hmem := (fits_signed w _).mp (valueOf_mem true (Value.read ⟨t, v⟩ w))
  change -2 ^ (w - 1) ≤ (Value.read ⟨t, v⟩ w).toInt ∧ (Value.read ⟨t, v⟩ w).toInt < 2 ^ (w - 1) at hmem
  rw [hv] at hmem
  unfold negate
  rw [hv]
  refine (meets_map_write hw _ (some (-valueOf t.signed v))).trans ?_
  have hp : (2 : ℤ) ^ (t.bits - 1) = 2 ^ (w - 1) := by rw [hw]
  rw [meetsBits_result, fits_signed, hp]
  omega

theorem unary_right_iff {t : RawType} (ht : t.isInteger = true) (op : Mir.UniOp) (v : BitVec t.bits) :
    Meets (uniOp op ⟨t, v⟩) ((meantUnary op t.signed (valueOf t.signed v)).map (Value.ofInt t)) ↔
      UnarySound op t (valueOf t.signed v) := by
  cases op with
  | inv =>
    change Meets _ (some (Value.ofInt t (-valueOf t.signed v - 1))) ↔ t.bits ≠ 128
    by_cases h128 : t.bits = 128
    · have hf : uniOp .inv ⟨t, v⟩ = .error .todo := by
        cases t
        case u128 | i128 => rfl
        all_goals exact absurd h128 (by decide)
      rw [hf]
      exact iff_of_false id (not_not.mpr h128)
    · rw [inv_right ht h128]
      exact iff_of_true rfl h128
  | neg =>
    cases t
    case i8 | i16 =>
      rw [neg_narrow_right (by simp)]
      exact iff_of_true rfl fun _ => Or.inl (by decide)
    case i32 | i64 | isize =>
      refine (negate_right_iff rfl rfl v).trans ?_
      exact ⟨fun h _ => Or.inr ⟨by decide, h⟩, fun h => ((h rfl).resolve_left (by decide)).2⟩
    case i128 => exact iff_of_false id fun h => absurd (h rfl) (by simp [RawType.bits, RawType.getSize])
    case u8 | u16 | u32 | u64 | u128 | usize => exact iff_of_true rfl fun h => by cases h
    all_goals cases ht

/-! ## All operations -/

/-- An operation with its operands. -/
inductive Calculation
  | compare (op : Comparison) (t : RawType) (ht : t.isInteger = true) (l r : BitVec t.bits)
  | arithmetic (op : Arithmetic) (t : RawType) (ht : t.isInteger = true) (l r : BitVec t.bits)
  | shift (op : Shift) (t tr : RawType) (ht : t.isInteger = true) (htr : tr.isInteger = true) (l : BitVec t.bits)
    (r : BitVec tr.bits)
  | unary (op : Mir.UniOp) (t : RawType) (ht : t.isInteger = true) (v : BitVec t.bits)
  | report (op : Reporting) (c : PrimitiveClass) (v x : BitVec c.bits)

namespace Calculation

/-- The interpreter does what Rust does: the wrapped result, a report, or the right kind of overflow. -/
def Right : Calculation → Prop
  | .compare op t _ l r =>
    Meets (binOp op.toBinOp ⟨t, l⟩ ⟨t, r⟩)
      (some (Value.ofInt .bool (if op.holds (valueOf t.signed l) (valueOf t.signed r) then 1 else 0)))
  | .arithmetic op t _ l r =>
    Meets (binOp op.toBinOp ⟨t, l⟩ ⟨t, r⟩)
      ((op.meant t.signed t.bits (valueOf t.signed l) (valueOf t.signed r)).map (Value.ofInt t))
  | .shift op t tr _ _ l r =>
    Meets (binOp op.toBinOp ⟨t, l⟩ ⟨tr, r⟩)
      ((op.meant t.bits (valueOf t.signed l) (valueOf tr.signed r)).map (Value.ofInt t))
  | .unary op t _ v =>
    Meets (uniOp op ⟨t, v⟩) ((meantUnary op t.signed (valueOf t.signed v)).map (Value.ofInt t))
  | .report op c v x =>
    PrimitiveValue.report op ⟨c, v⟩ ⟨c, x⟩ =
      .ok (overflowOf c.signed c.bits (op.exact (valueOf c.signed v) (valueOf c.signed x)))

/-- The operands for which it does. -/
def Sound : Calculation → Prop
  | .compare .. => True
  | .arithmetic op t _ l r => ArithmeticSound op t (valueOf t.signed l) (valueOf t.signed r)
  | .shift op t tr _ _ l r => ShiftSound op t tr (valueOf t.signed l) (valueOf tr.signed r)
  | .unary op t _ v => UnarySound op t (valueOf t.signed v)
  | .report op c v x => ReportSound op c.signed c.bits (valueOf c.signed v) (valueOf c.signed x)

end Calculation

end Mrustc.Miri
