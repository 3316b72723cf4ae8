import WebServer.ByteMemory
import WebServer.TransitionSystem
import Mathlib.Data.List.Nodup
import Mathlib.Data.List.Flatten
import Mathlib.Data.List.Perm.Basic

/-!
# Allocator

The pool allocator of `allocator.h`. Its free list is threaded through the free
blocks, so that the allocator works on the same bytes as the owners of the live
blocks. The memory is byte-addressed; null is address 0. What `malloc` answers
is part of the action: the address of the new chunk and the bytes found there.
`malloc` is assumed to succeed.

The state carries, besides the object and the memory, the chunks obtained so
far, the live blocks, and the blocks whose `next` field `allocate` or
`deallocate` has written.
-/
namespace WebServer.PoolAllocator
open ByteMemory TransitionSystem

/-- `size_t CHUNK{20}`. -/
@[irreducible] def chunk : ℕ := 20

theorem chunk_pos : 0 < chunk := by
  unfold chunk
  decide

/-- The object, with the memory it works on. -/
structure Allocator where
  freeStore : ℕ
  memory : Memory

/-- New memory at `base`, with whatever it contains. -/
structure Malloc where
  base : ℕ
  content : Memory

/-- The length asked of `malloc`: the `size_t` product `size * CHUNK`. -/
def chunkBytes (size : ℕ) : ℕ := size*chunk % 2^64

def Malloc.fill (x : Malloc) (n : ℕ) (m : Memory) : Memory :=
  fun i => if x.base ≤ i ∧ i < x.base+n then x.content i else m i

/-- The linking loop from block `p` on: `p->next = (obj*)((char*)p + size); p = p->next`. -/
def link (size : ℕ) : ℕ → ℕ → Memory → Memory
  | 0, _, m => m
  | n+1, p, m =>
      let m := storeWord m p (p+size)
      link size n (loadWord m p) m

/-- `if (!freeStore)`: a new chunk is obtained and its blocks are linked. -/
def Allocator.refill (size : ℕ) (x : Malloc) (a : Allocator) : Allocator :=
  if a.freeStore = 0 then
    ⟨x.base,link size (chunk-1) x.base (x.fill (chunkBytes size) a.memory)⟩
  else a

/-- `p = freeStore; freeStore = freeStore->next; return p`. -/
def Allocator.pop (a : Allocator) : ℕ × Allocator :=
  (a.freeStore,{a with freeStore := loadWord a.memory a.freeStore})

def Allocator.allocate (size : ℕ) (x : Malloc) (a : Allocator) : ℕ × Allocator :=
  (a.refill size x).pop

def Allocator.deallocate (p : ℕ) (a : Allocator) : Allocator :=
  ⟨p,storeWord a.memory p a.freeStore⟩

/-! ## The allocator and the owners of its blocks -/

structure State where
  alloc : Allocator
  chunks : List ℕ
  live : List ℕ
  linked : List ℕ

def State.initial (m : Memory) : State := ⟨⟨0,m⟩,[],[],[]⟩

/-- The owner of the live block `p` writes the byte at offset `i` by `use`. -/
inductive Action where
  | allocate (x : Malloc)
  | deallocate (p : ℕ)
  | use (p i : ℕ) (b : UInt8)

/-- `n` consecutive blocks from address `p` on. -/
def carve (size : ℕ) : ℕ → ℕ → List ℕ
  | 0, _ => []
  | n+1, p => p::carve size n (p+size)

/-- The blocks of the chunks obtained so far. -/
def State.blocks (size : ℕ) (s : State) : List ℕ := s.chunks.flatMap (carve size chunk)

def State.refill (size : ℕ) (x : Malloc) (s : State) : State :=
  if s.alloc.freeStore = 0 then
    { s with
      alloc := s.alloc.refill size x
      chunks := x.base::s.chunks
      linked := carve size (chunk-1) x.base++s.linked }
  else s

/-- The block which `allocate` returns. -/
def State.returned (size : ℕ) (x : Malloc) (s : State) : ℕ := (s.alloc.allocate size x).1

/-- `malloc` returns memory that is not null, and apart from the earlier chunks. -/
def State.fresh (size : ℕ) (x : Malloc) (s : State) : Prop :=
  0 < x.base ∧ x.base+chunkBytes size ≤ 2^64 ∧
    ∀ c ∈ s.chunks, Separate x.base (chunkBytes size) c (chunkBytes size)

def State.enabled (size : ℕ) (s : State) : Action → Prop
  | .allocate x => s.alloc.freeStore = 0 → s.fresh size x
  | .deallocate p => p ∈ s.live
  | .use p i _ => p ∈ s.live ∧ i < size

def State.next (size : ℕ) (s : State) : Action → State
  | .allocate x =>
      { s.refill size x with
        alloc := (s.alloc.allocate size x).2
        live := s.returned size x::s.live }
  | .deallocate p =>
      {s with alloc := s.alloc.deallocate p, live := s.live.erase p, linked := p::s.linked}
  | .use p i b => {s with alloc := {s.alloc with memory := write s.alloc.memory (p+i) [b]}}

/-- Allocation of objects of one fixed size. -/
def pool (size : ℕ) : System State Action :=
  System.guarded (fun s => ∃ m, s = State.initial m) (State.enabled size) (State.next size)

instance (size : ℕ) (x : Malloc) (s : State) : Decidable (s.fresh size x) :=
  inferInstanceAs (Decidable (_ ∧ _ ∧ _))

instance (size : ℕ) (s : State) : (a : Action) → Decidable (s.enabled size a)
  | .allocate x => inferInstanceAs (Decidable (s.alloc.freeStore = 0 → s.fresh size x))
  | .deallocate p => inferInstanceAs (Decidable (p ∈ s.live))
  | .use p i _ => inferInstanceAs (Decidable (p ∈ s.live ∧ i < size))

theorem alloc_refill_of_ne {a : Allocator} (h : a.freeStore ≠ 0) (size : ℕ) (x : Malloc) :
    a.refill size x = a := by
  unfold Allocator.refill
  exact if_neg h

theorem refill_of_ne {s : State} (h : s.alloc.freeStore ≠ 0) (size : ℕ) (x : Malloc) :
    s.refill size x = s := by
  unfold State.refill
  exact if_neg h

theorem reach_of_script {G : Discipline State Action} [∀ s a, Decidable (G s a)] (size : ℕ)
    (m : Memory) (as : List Action) (p : State → Bool)
    (h : (execute (fun s a => G s a ∧ s.enabled size a) (State.next size)
      (State.initial m) as).any p = true) : ∃ s, (pool size).Reach G s ∧ p s = true :=
  execute_reach (fun s => ∃ m, s = State.initial m) (fun _ _ hc => hc) ⟨m,rfl⟩ h

@[simp] theorem refill_alloc (size : ℕ) (x : Malloc) (s : State) :
    (s.refill size x).alloc = s.alloc.refill size x := by
  unfold State.refill Allocator.refill
  split_ifs <;> rfl

@[simp] theorem refill_live (size : ℕ) (x : Malloc) (s : State) :
    (s.refill size x).live = s.live := by
  unfold State.refill
  split_ifs <;> rfl

theorem next_allocate_chunks (size : ℕ) (x : Malloc) (s : State) :
    (s.next size (.allocate x)).chunks = (s.refill size x).chunks := by
  simp only [State.next]

theorem next_allocate_blocks (size : ℕ) (x : Malloc) (s : State) :
    (s.next size (.allocate x)).blocks size = (s.refill size x).blocks size := by
  rw [State.blocks,State.blocks,next_allocate_chunks]

/-- No call gives a chunk back. -/
theorem chunks_next (size : ℕ) (s : State) (a : Action) :
    s.chunks <:+ (s.next size a).chunks := by
  cases a with
  | allocate x =>
      rw [next_allocate_chunks,State.refill]
      split_ifs
      · exact List.suffix_cons x.base s.chunks
      · exact List.suffix_rfl
  | deallocate p => exact List.suffix_rfl
  | use p i b => exact List.suffix_rfl

/-! ## The geometry of the blocks -/

section Geometry
variable {size n p b : ℕ}

theorem mem_carve : b ∈ carve size n p ↔ ∃ i < n, b = p+i*size := by
  induction n generalizing p with
  | zero => simp [carve]
  | succ n ih =>
      rw [carve,List.mem_cons,ih]
      constructor
      · rintro (rfl | ⟨i,hi,rfl⟩)
        · exact ⟨0,by omega,by simp⟩
        · exact ⟨i+1,by omega,by ring⟩
      · rintro ⟨i,hi,rfl⟩
        cases i with
        | zero => exact .inl (by simp)
        | succ i => exact .inr ⟨i,by omega,by ring⟩

@[simp] theorem length_carve (size n p : ℕ) : (carve size n p).length = n := by
  induction n generalizing p with
  | zero => rfl
  | succ n ih => simp [carve,ih]

theorem carve_succ (size n p : ℕ) : carve size (n+1) p = carve size n p++[p+n*size] := by
  induction n generalizing p with
  | zero => simp [carve]
  | succ n ih =>
      rw [carve,ih,carve,List.cons_append]
      congr 3
      ring

/-- A block lies within its run of blocks. -/
theorem range_of_mem_carve (h : b ∈ carve size n p) : p ≤ b ∧ b+size ≤ p+n*size := by
  obtain ⟨i,hi,rfl⟩ := mem_carve.mp h
  have hle : (i+1)*size ≤ n*size := Nat.mul_le_mul_right size hi
  rw [Nat.add_mul,Nat.one_mul] at hle
  omega

/-- Two blocks do not overlap. -/
def Apart (size a b : ℕ) : Prop := Separate a size b size

theorem Apart.symm {a b : ℕ} (h : Apart size a b) : Apart size b a := Or.symm h

theorem Apart.ne {a b : ℕ} (h : Apart size a b) (hsize : 0 < size) : a ≠ b := by
  rintro rfl
  unfold Apart Separate at h
  omega

theorem carve_apart (size n p : ℕ) : (carve size n p).Pairwise (Apart size) := by
  induction n generalizing p with
  | zero => exact .nil
  | succ n ih =>
      refine .cons ?_ (ih _)
      intro b hb
      exact .inl (range_of_mem_carve hb).1

end Geometry

/-! ## The linking loop -/

section Link
variable {size n p : ℕ} {m : Memory} {i : ℕ}

theorem link_succ (hfits : p+size < 2^64) :
    link size (n+1) p m = link size n (p+size) (storeWord m p (p+size)) := by
  simp only [link,loadWord_storeWord_same hfits]

/-- The loop writes into the blocks which it links, and nowhere else. -/
theorem link_outside (hsize : wordSize ≤ size) (hfits : p+n*size < 2^64)
    (hi : i < p ∨ p+n*size ≤ i) : link size n p m i = m i := by
  induction n generalizing p m with
  | zero => rfl
  | succ n ih =>
      rw [Nat.add_mul,Nat.one_mul] at hfits hi
      rw [link_succ (by omega),ih (by omega) (by omega)]
      apply write_outside
      rw [length_encode]
      omega

theorem link_chain (hsize : wordSize ≤ size) (hfits : p+n*size < 2^64) :
    Chain (loadWord (link size n p m)) p (carve size n p) (p+n*size) := by
  induction n generalizing p m with
  | zero => simp [Chain,carve]
  | succ n ih =>
      rw [Nat.add_mul,Nat.one_mul] at hfits
      have hhead : loadWord (link size n (p+size) (storeWord m p (p+size))) p = p+size := by
        rw [← loadWord_storeWord_same (m := m) (a := p) (w := p+size) (by omega)]
        apply loadWord_congr
        intro i _ hi
        rw [loadWord_storeWord_same (by omega)]
        exact link_outside hsize (by omega) (.inl (by omega))
      rw [link_succ (by omega)]
      refine ⟨rfl,?_⟩
      rw [hhead]
      have hrest := ih (p := p+size) (m := storeWord m p (p+size)) (by omega)
      have hend : p+size+n*size = p+(n+1)*size := by ring
      rwa [hend] at hrest

end Link

end WebServer.PoolAllocator
