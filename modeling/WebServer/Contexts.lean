import WebServer.RequestParsing
import Mathlib.Algebra.Group.Int.Defs

/-!
# ConnectionContext

The members that only the task in charge of a connection may touch are
collected in `Session`; the descriptor is constant and the reference count is
shared.
-/
namespace WebServer.Contexts
open RequestParsing

/-- The constants of `common.h`. -/
def maxEvents : ℕ := 1024
def threadPoolSize : ℕ := 4
def bufferSize : ℕ := 4096

structure Session where
  buffer : Bytes
  bytesRead : ℕ
  request : HttpRequest
  closed : Bool
  deriving DecidableEq, Repr

/-- The buffer is cleared by `memset` and the counters are zero. -/
def Session.fresh (size : ℕ) : Session := ⟨List.replicate size 0,0,.empty,false⟩

/-- Memory with `bytes` stored from offset `k` on. A store that does not fit
makes the list longer instead of being lost. -/
def store (memory : Bytes) (k : ℕ) (bytes : Bytes) : Bytes :=
  memory.take k++bytes++memory.drop (k+bytes.length)

theorem store_append (front rest bytes : Bytes) :
    store (front++rest) front.length bytes = front++bytes++rest.drop bytes.length := by
  simp [store,List.drop_append]

theorem length_store {memory bytes : Bytes} {k : ℕ} (h : k+bytes.length ≤ memory.length) :
    (store memory k bytes).length = memory.length := by
  simp only [store,List.length_append,List.length_take,List.length_drop]
  omega

/-- Bytes stored over a terminator, and a new terminator behind them. -/
theorem store_terminated (front rest bytes : Bytes) :
    ∃ rest', store (store (front++0::rest) front.length bytes) (front.length+bytes.length) [0] =
      (front++bytes)++0::rest' := by
  refine ⟨((0::rest).drop bytes.length).drop 1,?_⟩
  calc store (store (front++0::rest) front.length bytes) (front.length+bytes.length) [0]
      = store ((front++bytes)++(0::rest).drop bytes.length) (front++bytes).length [0] := by
        rw [store_append,List.length_append]
    _ = (front++bytes)++0::((0::rest).drop bytes.length).drop 1 := by
        rw [store_append,List.append_assoc (front++bytes)]
        rfl

/-- A cleared buffer starts with a terminator. -/
theorem cleared_terminated {size : ℕ} (h : 0 < size) :
    List.replicate size (0 : UInt8) = 0::List.replicate (size-1) 0 := by
  rw [← List.replicate_succ,Nat.sub_add_cancel h]

/-- The C-string view of a buffer, which stops at the first NUL. -/
def cString (memory : Bytes) : Bytes := memory.takeWhile (· ≠ 0)

/-- The conversion of an `int` to `size_t`. -/
def toSize (n : ℤ) : ℕ := (n % 2^64).toNat

/-- The length asked of `read`: `BUFFER_SIZE - ctx->bytes_read - 1`. -/
def Session.room (size : ℕ) (s : Session) : ℕ := toSize (size-s.bytesRead-1)

structure ConnectionContext extends Session where
  fd : ℕ
  refCount : ℤ
  deriving DecidableEq, Repr

/-- `ConnectionContext(fd)`: the creator holds the first reference. -/
def ConnectionContext.new (size fd : ℕ) : ConnectionContext := ⟨Session.fresh size,fd,1⟩

def ConnectionContext.addRef (c : ConnectionContext) : ConnectionContext :=
  {c with refCount := c.refCount+1}

/-- The `fetch_sub` of `release`; the object deletes itself when the old value was 1. -/
def ConnectionContext.dropRef (c : ConnectionContext) : ConnectionContext :=
  {c with refCount := c.refCount-1}

def ConnectionContext.lastRef (c : ConnectionContext) : Bool := c.refCount = 1

end WebServer.Contexts
