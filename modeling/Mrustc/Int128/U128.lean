import Mathlib.Tactic

/-! # Unsigned 128-bit integers

`class U128`: two 64-bit words with operations written by hand. The comments of the loops give what their
variables hold.
-/

namespace Mrustc.Int128

/-- `class U128` -/
structure U128 where
  lo : BitVec 64
  hi : BitVec 64
  deriving DecidableEq, Repr

namespace U128

def ofBits (v : BitVec 128) : U128 := ⟨v.setWidth 64, (v >>> 64).setWidth 64⟩

def ofNat (n : ℕ) : U128 := ofBits (BitVec.ofNat 128 n)

/-- The two words side by side. -/
def bits (v : U128) : BitVec 128 := v.hi ++ v.lo

def toNat (v : U128) : ℕ := v.bits.toNat

def max : U128 := ⟨BitVec.allOnes 64, BitVec.allOnes 64⟩

def truncateU64 (v : U128) : BitVec 64 := v.lo

def not (v : U128) : U128 := ⟨~~~v.lo, ~~~v.hi⟩
def or (v x : U128) : U128 := ⟨v.lo ||| x.lo, v.hi ||| x.hi⟩
def and (v x : U128) : U128 := ⟨v.lo &&& x.lo, v.hi &&& x.hi⟩
def xor (v x : U128) : U128 := ⟨v.lo ^^^ x.lo, v.hi ^^^ x.hi⟩

/-- `add128_o`, without the overflow flag -/
def add (a b : U128) : U128 :=
  let lo := a.lo + b.lo
  ⟨lo, a.hi + b.hi + (if lo < a.lo then 1 else 0)⟩

/-- `sub128_o`, without the overflow flag -/
def sub (a b : U128) : U128 :=
  let lo := a.lo - b.lo
  ⟨lo, a.hi - b.hi - (if lo > a.lo then 1 else 0)⟩

/-- `operator<<(unsigned)` -/
def shl (v : U128) (bits : ℕ) : U128 :=
  if bits = 0 then v
  else if bits ≥ 128 then ⟨0, 0⟩
  else if bits ≥ 64 then ⟨0, v.lo <<< (bits - 64)⟩
  else ⟨v.lo <<< bits, (v.hi <<< bits) ||| (v.lo >>> (64 - bits))⟩

/-- `operator>>(unsigned)` -/
def shr (v : U128) (bits : ℕ) : U128 :=
  if bits = 0 then v
  else if bits ≥ 128 then ⟨0, 0⟩
  else if bits ≥ 64 then ⟨v.hi >>> (bits - 64), 0⟩
  else ⟨(v.lo >>> bits) ||| (v.hi <<< (64 - bits)), v.hi >>> bits⟩

/-- `cmp128` -/
def cmp (a b : U128) : Ordering :=
  if a.hi ≠ b.hi then (if a.hi < b.hi then .lt else .gt)
  else if a.lo ≠ b.lo then (if a.lo < b.lo then .lt else .gt)
  else .eq

def bit (v : U128) (idx : ℕ) : Bool :=
  if idx < 64 then v.lo.getLsbD idx
  else if idx < 128 then v.hi.getLsbD (idx - 64)
  else false

/-- `operator<<(U128)`; the cast of the amount to `unsigned` keeps 32 bits. -/
def shlWide (v bits : U128) : U128 :=
  if bits.cmp ⟨128, 0⟩ ≠ .lt then ⟨0, 0⟩ else v.shl (bits.truncateU64.setWidth 32).toNat

/-- `operator>>(U128)` -/
def shrWide (v bits : U128) : U128 :=
  if bits.cmp ⟨128, 0⟩ ≠ .lt then ⟨0, 0⟩ else v.shr (bits.truncateU64.setWidth 32).toNat

/-- Both words shifted left by one, as the loops below write it. -/
def double (b : U128) : U128 := ⟨b.lo <<< 1, (b.hi <<< 1) ||| (b.lo >>> 63)⟩

/-- Both words shifted right by one. -/
def half (b : U128) : U128 := ⟨(b.lo >>> 1) ||| (b.hi <<< 63), b.hi >>> 1⟩

/-- The loop of `mul128_o` from the round `i` on, with `n` rounds to go. -/
def mulLoop (a : U128) : (n i : ℕ) → (b o : U128) → U128
  | 0, _, _, o => o
  | n + 1, i, b, o =>
    let m := 1#64 <<< (i % 64)
    if a.hi = 0 ∧ a.lo < m then o
    else if i ≥ 64 ∧ a.hi < m then o
    else
      let o := if m &&& (if i ≥ 64 then a.hi else a.lo) ≠ 0 then o.add b else o
      mulLoop a n (i + 1) b.double o

/-- `mul128_o` -/
def mul (a b : U128) : U128 := mulLoop a 128 0 b ⟨0, 0⟩

/-- The first loop of `div128_o`: `b` is shifted up to the highest multiple that is at most `a`. -/
def divShift (aDiv2 : U128) : (n shift : ℕ) → (b : U128) → ℕ × U128
  | 0, shift, b => (shift, b)
  | n + 1, shift, b =>
    if aDiv2.cmp b ≠ .lt then divShift aDiv2 n (shift + 1) b.double else (shift, b)

/-- The second loop of `div128_o`, with `n` rounds to go. -/
def divLoop : (n : ℕ) → (mask a b q : U128) → U128 × U128
  | 0, _, a, _, q => (q, a)
  | n + 1, mask, a, b, q =>
    if a.cmp b ≠ .lt then divLoop n mask.half (a.sub b) b.half (q.add mask)
    else divLoop n mask.half a b.half q

/-- `div128_o`: the quotient and the remainder. A division by zero overflows and leaves both at zero. -/
def divMod (a b : U128) : U128 × U128 :=
  if a.hi = 0 ∧ b.hi = 0 then (⟨a.lo / b.lo, 0⟩, ⟨a.lo % b.lo, 0⟩)
  else if a.cmp b = .lt then (⟨0, 0⟩, a)
  else
    let (shift, b) := divShift a.half 128 0 b
    if shift = 128 then (⟨0, 0⟩, ⟨0, 0⟩)
    else
      let mask : U128 := ⟨if shift ≥ 64 then 0 else 1#64 <<< shift, if shift < 64 then 0 else 1#64 <<< (shift - 64)⟩
      divLoop (shift + 1) mask a b ⟨0, 0⟩

def div (a b : U128) : U128 := (a.divMod b).1
def mod (a b : U128) : U128 := (a.divMod b).2

end U128

end Mrustc.Int128
