import Mathlib.Data.List.Basic
import Mathlib.Data.Nat.Digits.Defs

/-!
# Byte-addressed memory

A memory gives every address its byte. Words are stored in little-endian order.
A list that is threaded through the memory itself is described by the nodes
which a reader meets when it follows the links; the description survives every
write that leaves the links of these nodes alone.
-/
namespace WebServer.ByteMemory

abbrev Memory := ℕ → UInt8

/-- The `n` bytes from address `a` on. -/
def load (m : Memory) (a : ℕ) : ℕ → List UInt8
  | 0 => []
  | n+1 => m a::load m (a+1) n

def write (m : Memory) (a : ℕ) (bytes : List UInt8) : Memory :=
  fun i => if a ≤ i then bytes.getD (i-a) (m i) else m i

/-- The ranges of `n` bytes at `a` and of `k` bytes at `b` do not meet. -/
def Separate (a n b k : ℕ) : Prop := a+n ≤ b ∨ b+k ≤ a

instance (a n b k : ℕ) : Decidable (Separate a n b k) :=
  inferInstanceAs (Decidable (_ ∨ _))

section Bytes
variable {m m' : Memory} {a b n i : ℕ} {bytes : List UInt8}

theorem write_outside (h : i < a ∨ a+bytes.length ≤ i) : write m a bytes i = m i := by
  unfold write
  split_ifs with ha
  · simp [List.getD_eq_getElem?_getD,List.getElem?_eq_none (show bytes.length ≤ i-a by omega)]
  · rfl

theorem load_congr (h : ∀ i, a ≤ i → i < a+n → m i = m' i) : load m a n = load m' a n := by
  induction n generalizing a with
  | zero => rfl
  | succ n ih =>
      rw [load,load,h a (by omega) (by omega),ih fun i hi hn => h i (by omega) (by omega)]

theorem load_write_separate (h : Separate a n b bytes.length) :
    load (write m b bytes) a n = load m a n := by
  apply load_congr
  intro i hi hn
  apply write_outside
  unfold Separate at h
  omega

theorem load_write_same (m : Memory) (a : ℕ) (bytes : List UInt8) :
    load (write m a bytes) a bytes.length = bytes := by
  induction bytes generalizing m a with
  | nil => rfl
  | cons x bytes ih =>
      have hhead : write m a (x::bytes) a = x := by simp [write]
      have htail : load (write m a (x::bytes)) (a+1) bytes.length =
          load (write m (a+1) bytes) (a+1) bytes.length := by
        apply load_congr
        intro i hi hn
        have hsub : i-a = (i-(a+1))+1 := by omega
        simp only [write,if_pos (show a ≤ i by omega),if_pos hi,hsub,List.getD_cons_succ]
      rw [List.length_cons,load,hhead,htail,ih]

end Bytes

/-! ## Words -/

/-- The `n` little-endian bytes of a number. Higher bytes are lost. -/
def encode : ℕ → ℕ → List UInt8
  | 0, _ => []
  | n+1, w => UInt8.ofNat w::encode n (w/256)

def decode (bytes : List UInt8) : ℕ := Nat.ofDigits 256 (bytes.map UInt8.toNat)

@[simp] theorem length_encode (n w : ℕ) : (encode n w).length = n := by
  induction n generalizing w with
  | zero => rfl
  | succ n ih => simp [encode,ih]

theorem decode_encode (n w : ℕ) : decode (encode n w) = w % 256^n := by
  induction n generalizing w with
  | zero => simp [encode,decode,Nat.mod_one]
  | succ n ih =>
      have hrest : Nat.ofDigits 256 ((encode n (w/256)).map UInt8.toNat) = w/256 % 256^n := ih _
      rw [encode,decode,List.map_cons,Nat.ofDigits_cons,hrest,pow_succ',Nat.mod_mul]
      simp

/-- A pointer has eight bytes. -/
def wordSize : ℕ := 8

def loadWord (m : Memory) (a : ℕ) : ℕ := decode (load m a wordSize)

def storeWord (m : Memory) (a w : ℕ) : Memory := write m a (encode wordSize w)

section Words
variable {m m' : Memory} {a b w : ℕ}

theorem loadWord_storeWord_same (h : w < 2^64) : loadWord (storeWord m a w) a = w := by
  have hload := load_write_same m a (encode wordSize w)
  rw [length_encode] at hload
  rw [loadWord,storeWord,hload,decode_encode]
  exact Nat.mod_eq_of_lt h

theorem loadWord_congr (h : ∀ i, a ≤ i → i < a+wordSize → m i = m' i) :
    loadWord m a = loadWord m' a := by
  rw [loadWord,load_congr h]
  rfl

theorem loadWord_zero (h : ∀ i, a ≤ i → i < a+wordSize → m i = 0) : loadWord m a = 0 :=
  calc loadWord m a = loadWord (fun _ => 0) a := loadWord_congr h
    _ = 0 := by simp [loadWord,wordSize,load,decode,Nat.ofDigits_cons]

end Words

/-! ## Threaded lists -/

section Chain
variable {α : Type*} {next next' : α → α} {a b e : α} {l l' : List α}

/-- Following `next` from `a` leads through the nodes `l` to `e`. -/
def Chain (next : α → α) (a : α) : List α → α → Prop
  | [], e => a = e
  | b::l, e => a = b ∧ Chain next (next b) l e

theorem Chain.congr (h : Chain next a l e) (hn : ∀ b ∈ l, next' b = next b) :
    Chain next' a l e := by
  induction l generalizing a with
  | nil => exact h
  | cons b l ih =>
      obtain ⟨rfl,hrest⟩ := h
      refine ⟨rfl,?_⟩
      rw [hn a List.mem_cons_self]
      exact ih hrest fun b hb => hn b (List.mem_cons_of_mem _ hb)

theorem Chain.append (h : Chain next a l b) (h' : Chain next b l' e) :
    Chain next a (l++l') e := by
  induction l generalizing a with
  | nil =>
      have ha : a = b := h
      subst ha
      exact h'
  | cons c l ih => exact ⟨h.1,ih h.2⟩

end Chain

end WebServer.ByteMemory
