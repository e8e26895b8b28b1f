import Mathlib.Algebra.Group.Int.Defs
import Mathlib.Algebra.Group.Nat.Defs

/-! # Status codes and fixed-width conversions -/
namespace FalconKV

abbrev Key := String

inductive Code
  | ok | ioError | notFound | corruption | rpcError | timeout | noSpace | invalidArg
  | maxRetryExceeded | notSupported | unknown
  deriving DecidableEq, Repr

def Code.toNat : Code → Nat
  | ok => 0 | ioError => 1 | notFound => 2 | corruption => 3 | rpcError => 4 | timeout => 5
  | noSpace => 6 | invalidArg => 7 | maxRetryExceeded => 8 | notSupported => 9 | unknown => 10

structure Status where
  code : Code
  msg : String
  deriving DecidableEq, Repr

namespace Status

def OK : Status := ⟨.ok,""⟩
def ioError (msg : String) : Status := ⟨.ioError,msg⟩
def notFound (msg : String) : Status := ⟨.notFound,msg⟩
def corruption (msg : String) : Status := ⟨.corruption,msg⟩
def rpcError (msg : String) : Status := ⟨.rpcError,msg⟩
def noSpace (msg : String) : Status := ⟨.noSpace,msg⟩
def invalidArg (msg : String) : Status := ⟨.invalidArg,msg⟩

def isOk (s : Status) : Bool := s.code == .ok

@[simp] theorem isOk_OK : OK.isOk = true := rfl
@[simp] theorem isOk_ioError (msg : String) : (ioError msg).isOk = false := rfl
@[simp] theorem isOk_notFound (msg : String) : (notFound msg).isOk = false := rfl
@[simp] theorem isOk_corruption (msg : String) : (corruption msg).isOk = false := rfl
@[simp] theorem isOk_rpcError (msg : String) : (rpcError msg).isOk = false := rfl
@[simp] theorem isOk_noSpace (msg : String) : (noSpace msg).isOk = false := rfl
@[simp] theorem isOk_invalidArg (msg : String) : (invalidArg msg).isOk = false := rfl

end Status

def u32 (n : Nat) : Nat := n % 2^32

def predU32 (n : Nat) : Nat := if n = 0 then 2^32 - 1 else n - 1

def subU64 (a b : Nat) : Nat := (a + 2^64 - b % 2^64) % 2^64

/-- `static_cast<int64_t>` of an unsigned number. -/
def int64 (n : Nat) : Int := if n % 2^64 < 2^63 then (n % 2^64 : Nat) else (n % 2^64 : Nat) - (2^64 : Int)

def int32 (n : Nat) : Int := if n % 2^32 < 2^31 then (n % 2^32 : Nat) else (n % 2^32 : Nat) - (2^32 : Int)

theorem u32_of_lt {n : Nat} (h : n < 2^32) : u32 n = n := Nat.mod_eq_of_lt h
theorem u32_le (n : Nat) : u32 n ≤ n := Nat.mod_le n _
theorem u32_lt (n : Nat) : u32 n < 2^32 := Nat.mod_lt n (by decide)

theorem u32_eq_self_iff {n : Nat} : u32 n = n ↔ n < 2^32 := by
  constructor
  · intro h
    rw [← h]
    exact u32_lt n
  · exact u32_of_lt

theorem predU32_add_one {n : Nat} (h : 0 < n) : predU32 n + 1 = n := by
  simp only [predU32]
  split <;> omega

theorem predU32_lt {n : Nat} (h : n < 2^32) : predU32 n < 2^32 := by
  simp only [predU32]
  split <;> omega

theorem int64_of_lt {n : Nat} (h : n < 2^63) : int64 n = n := by
  have hn : n % 2^64 = n := Nat.mod_eq_of_lt (by omega)
  simp only [int64, hn, if_pos h]

end FalconKV
