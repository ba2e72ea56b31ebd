import Mathlib.Algebra.Ring.Int.Defs
import Mathlib.Algebra.Ring.Nat
import Mathlib.Data.Int.Order.Basic

/-!
Pointer values, as the integer address they hold (null is zero), and the address
ranges shown to the device.
-/

namespace PickleDevice

def toUInt64 (p : ℤ) : UInt64 := UInt64.ofInt p

structure AddressRange where
  start : UInt64
  stop : UInt64
  deriving DecidableEq, Repr

structure ElementType where
  sizeof : ℕ
  sizeof_pos : 0 < sizeof
  sizeof_lt : sizeof < 2 ^ 64
  deriving DecidableEq

def intType : ElementType := ⟨4, by decide, by decide⟩

def ElementType.add (T : ElementType) (p : ℤ) (n : ℤ) : ℤ := p + n * T.sizeof

def ElementType.sub (T : ElementType) (q p : ℤ) : ℤ := (q - p) / T.sizeof

theorem toUInt64_toNat {p : ℤ} (h : 0 ≤ p) (hlt : p < 2 ^ 64) : (toUInt64 p).toNat = p.toNat := by
  rw [toUInt64, UInt64.ofInt, UInt64.toNat_ofNat', Int.emod_eq_of_lt h hlt]
  apply Nat.mod_eq_of_lt
  omega

theorem toUInt64_inj {p q : ℤ} (hp : 0 ≤ p) (hp' : p < 2 ^ 64) (hq : 0 ≤ q) (hq' : q < 2 ^ 64)
    (h : toUInt64 p = toUInt64 q) : p = q := by
  have hn := congrArg UInt64.toNat h
  rw [toUInt64_toNat hp hp', toUInt64_toNat hq hq'] at hn
  omega

namespace ElementType

variable (T : ElementType)

theorem sizeof_pos' : (0 : ℤ) < T.sizeof := Int.natCast_pos.mpr T.sizeof_pos

@[simp] theorem add_zero' (p : ℤ) : T.add p 0 = p := by simp [add]

theorem add_add (p : ℤ) (m n : ℤ) : T.add (T.add p m) n = T.add p (m + n) := by
  simp only [add, Int.add_mul, Int.add_assoc]

theorem sub_add (p : ℤ) (n : ℤ) : T.sub (T.add p n) p = n := by
  rw [sub, add, Int.add_comm, Int.add_sub_cancel]
  exact Int.mul_ediv_cancel n (Int.ne_of_gt T.sizeof_pos')

@[simp] theorem sub_self' (p : ℤ) : T.sub p p = 0 := by simp [sub]

theorem add_inj {p : ℤ} {m n : ℤ} (h : T.add p m = T.add p n) : m = n :=
  (T.sub_add p m).symm.trans (h ▸ T.sub_add p n)

theorem add_le_add {p : ℤ} {m n : ℤ} (h : m ≤ n) : T.add p m ≤ T.add p n := by
  have := Int.mul_le_mul_of_nonneg_right h (Int.le_of_lt T.sizeof_pos')
  simp only [add]
  omega

end ElementType

end PickleDevice
