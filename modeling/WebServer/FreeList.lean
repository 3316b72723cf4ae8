import WebServer.PoolAllocator

/-!
# The free list of the pool allocator

The blocks are divided into the free list, the live blocks, and blocks which are
neither: the last block of a chunk has no link of its own when its chunk is new,
so that the list proper ends in front of it. Three things move a block: a new
chunk puts its blocks on the list, `allocate` takes the first one, `deallocate`
puts one back. Owners write into live blocks only, which touches no link.
-/
namespace WebServer.FreeList
open ByteMemory PoolAllocator

/-- Following the links from `freeStore` leads through `free` to `e`; `rest` are
the blocks which are neither on this list nor live. -/
structure Threaded (size : ℕ) (s : State) (free rest : List ℕ) (e : ℕ) : Prop where
  chain : Chain (loadWord s.alloc.memory) s.alloc.freeStore free e
  blocks : (free++(rest++s.live)).Perm (s.blocks size)
  apart : (s.blocks size).Pairwise (Apart size)
  range : ∀ c ∈ s.chunks, 0 < c ∧ c+size*chunk ≤ 2^64
  fits : e < 2^64

theorem threaded_initial (size : ℕ) (m : Memory) : Threaded size (.initial m) [] [] 0 where
  chain := rfl
  blocks := .nil
  apart := .nil
  range := by simp [State.initial]
  fits := by decide

section
variable {size : ℕ} {s : State} {free rest : List ℕ} {e p : ℕ}

theorem Threaded.pairwise (h : Threaded size s free rest e) :
    (free++(rest++s.live)).Pairwise (Apart size) :=
  (h.blocks.pairwise_iff fun hab => hab.symm).mpr h.apart

theorem Threaded.nodup (h : Threaded size s free rest e) (hsize : 0 < size) :
    (free++(rest++s.live)).Nodup :=
  h.pairwise.imp fun hab => hab.ne hsize

/-- A block is an address: it is not null, and ends within the address space. -/
theorem Threaded.address (h : Threaded size s free rest e) (hp : p ∈ free++(rest++s.live)) :
    0 < p ∧ p+size ≤ 2^64 := by
  have hmem : p ∈ s.blocks size := h.blocks.mem_iff.mp hp
  obtain ⟨c,hc,hpc⟩ := List.mem_flatMap.mp hmem
  obtain ⟨hpos,hend⟩ := h.range c hc
  obtain ⟨hle,hlt⟩ := range_of_mem_carve hpc
  rw [Nat.mul_comm] at hend
  omega

/-- Writing inside a block that is not on the list keeps the links of the list. -/
theorem Threaded.link_write (h : Threaded size s free rest e) (hsize : wordSize ≤ size)
    (hp : p ∈ rest++s.live) {i : ℕ} (bytes : List UInt8) (hi : i+bytes.length ≤ size) :
    ∀ b ∈ free, loadWord (write s.alloc.memory (p+i) bytes) b = loadWord s.alloc.memory b := by
  intro b hb
  have hapart : Apart size b p := (List.pairwise_append.mp h.pairwise).2.2 b hb p hp
  have hsep : Separate b wordSize (p+i) bytes.length := by
    unfold Apart Separate at hapart
    unfold Separate
    omega
  rw [loadWord,load_write_separate hsep]
  rfl

/-! ## Steps -/

theorem Threaded.use (h : Threaded size s free rest e) (hsize : wordSize ≤ size)
    (hp : p ∈ s.live) {i : ℕ} (hi : i < size) (b : UInt8) :
    Threaded size (s.next size (.use p i b)) free rest e where
  chain := h.chain.congr (h.link_write hsize (List.mem_append_right _ hp) [b] hi)
  blocks := h.blocks
  apart := h.apart
  range := h.range
  fits := h.fits

theorem Threaded.deallocate (h : Threaded size s free rest e) (hsize : wordSize ≤ size)
    (hp : p ∈ s.live) : Threaded size (s.next size (.deallocate p)) (p::free) rest e where
  chain := by
    have hstore : s.alloc.freeStore < 2^64 := by
      cases hfree : free with
      | nil =>
          have hc := h.chain
          rw [hfree] at hc
          have he : s.alloc.freeStore = e := hc
          exact he ▸ h.fits
      | cons b l =>
          have hc := h.chain
          rw [hfree] at hc
          obtain ⟨-,hb⟩ := h.address (p := b) (by simp [hfree])
          have hsize' : 0 < size := Nat.lt_of_lt_of_le (by decide) hsize
          rw [hc.1]
          omega
    have hlinks := h.link_write hsize (List.mem_append_right rest hp) (i := 0)
      (encode wordSize s.alloc.freeStore) (by simpa using hsize)
    refine ⟨rfl,?_⟩
    have hhead : loadWord (storeWord s.alloc.memory p s.alloc.freeStore) p = s.alloc.freeStore :=
      loadWord_storeWord_same hstore
    exact hhead ▸ h.chain.congr hlinks
  blocks := by
    have hlive : (p::s.live.erase p).Perm s.live := (List.perm_cons_erase hp).symm
    have hrest : (p::(rest++s.live.erase p)).Perm (rest++s.live) :=
      List.perm_middle.symm.trans (hlive.append_left rest)
    have hall : (free++p::(rest++s.live.erase p)).Perm (free++(rest++s.live)) :=
      hrest.append_left free
    exact (List.perm_middle.symm.trans hall).trans h.blocks
  apart := h.apart
  range := h.range
  fits := h.fits

/-- The list is not empty, so that `allocate` takes its first block. -/
theorem Threaded.pop {b : ℕ} (h : Threaded size s (b::free) rest e) (x : Malloc) :
    s.refill size x = s ∧ s.returned size x = b ∧
      Threaded size (s.next size (.allocate x)) free rest e := by
  have hb : s.alloc.freeStore = b := h.chain.1
  have hne : s.alloc.freeStore ≠ 0 := by
    rw [hb]
    exact Nat.ne_of_gt (h.address (by simp)).1
  have hstate := refill_of_ne hne size x
  have halloc := alloc_refill_of_ne hne size x
  have hreturned : s.returned size x = b := by
    rw [State.returned,Allocator.allocate,halloc,Allocator.pop,hb]
  refine ⟨hstate,hreturned,?_⟩
  constructor
  · simp only [State.next,Allocator.allocate,halloc,Allocator.pop,hb]
    exact h.chain.2
  · have hlive : (s.next size (.allocate x)).live = b::s.live := by
      simp only [State.next,hreturned]
    rw [hlive,next_allocate_blocks,hstate]
    have hmove : (free++(rest++b::s.live)).Perm (b::free++(rest++s.live)) := by
      rw [← List.append_assoc,List.cons_append,← List.append_assoc]
      exact List.perm_middle
    exact hmove.trans h.blocks
  · rw [next_allocate_blocks,hstate]
    exact h.apart
  · rw [next_allocate_chunks,hstate]
    exact h.range
  · exact h.fits

/-- The end of the list is itself a block: its link tells where the list goes on. -/
theorem Threaded.extend (h : Threaded size s free (e::rest) e) {w : ℕ}
    (hw : loadWord s.alloc.memory e = w) (hfits : w < 2^64) :
    Threaded size s (free++[e]) rest w where
  chain := h.chain.append ⟨rfl,hw⟩
  blocks := by simpa using h.blocks
  apart := h.apart
  range := h.range
  fits := hfits

/-! ## A new chunk -/

section Refill
variable {x : Malloc}

theorem chunkBytes_eq (hwrap : size*chunk < 2^64) : chunkBytes size = size*chunk :=
  Nat.mod_eq_of_lt hwrap

theorem last_block (size p : ℕ) : carve size chunk p =
    carve size (chunk-1) p++[p+(chunk-1)*size] := by
  rw [← carve_succ,Nat.sub_add_cancel chunk_pos]

theorem refill_eq (h0 : s.alloc.freeStore = 0) (hwrap : size*chunk < 2^64) : s.refill size x =
    { alloc := ⟨x.base,link size (chunk-1) x.base (x.fill (size*chunk) s.alloc.memory)⟩
      chunks := x.base::s.chunks
      live := s.live
      linked := carve size (chunk-1) x.base++s.linked } := by
  simp only [State.refill,Allocator.refill,if_pos h0,chunkBytes_eq hwrap]

theorem last_block_end (size : ℕ) : (chunk-1)*size+size = size*chunk := by
  unfold chunk
  omega

/-- The link of the last block of a new chunk is what `malloc` left there. -/
theorem refill_last (h0 : s.alloc.freeStore = 0) (hsize : wordSize ≤ size)
    (hwrap : size*chunk < 2^64) (hx : s.fresh size x) :
    loadWord (s.refill size x).alloc.memory (x.base+(chunk-1)*size) =
      loadWord x.content (x.base+(chunk-1)*size) := by
  have hlast := last_block_end size
  obtain ⟨-,hend,-⟩ := hx
  rw [chunkBytes_eq hwrap] at hend
  rw [refill_eq h0 hwrap]
  apply loadWord_congr
  intro i hi hi'
  simp only
  rw [link_outside hsize (by unfold wordSize at *; omega) (.inr hi)]
  exact if_pos (by unfold wordSize at *; omega)

/-- A new chunk is linked up to its last block. -/
theorem Threaded.refill (h : Threaded size s [] rest e) (h0 : s.alloc.freeStore = 0)
    (hsize : wordSize ≤ size) (hwrap : size*chunk < 2^64) (hx : s.fresh size x) :
    Threaded size (s.refill size x) (carve size (chunk-1) x.base)
      ((x.base+(chunk-1)*size)::rest) (x.base+(chunk-1)*size) := by
  have hlast := last_block_end size
  obtain ⟨hpos,hend,hsep⟩ := hx
  rw [chunkBytes_eq hwrap] at hend hsep
  have hblocks : (s.refill size x).blocks size = carve size chunk x.base++s.blocks size := by
    rw [refill_eq h0 hwrap]
    rfl
  have hfits : x.base+(chunk-1)*size < 2^64 := by
    unfold wordSize at hsize
    omega
  constructor
  · rw [refill_eq h0 hwrap]
    exact link_chain hsize hfits
  · rw [hblocks,refill_live,last_block]
    have hold := h.blocks
    rw [List.nil_append] at hold
    simpa using hold.append_left (carve size (chunk-1) x.base++[x.base+(chunk-1)*size])
  · rw [hblocks,List.pairwise_append]
    refine ⟨carve_apart ..,h.apart,?_⟩
    intro a ha b hb
    obtain ⟨c,hc,hbc⟩ := List.mem_flatMap.mp hb
    obtain ⟨ha₁,ha₂⟩ := range_of_mem_carve ha
    obtain ⟨hb₁,hb₂⟩ := range_of_mem_carve hbc
    have hsep := hsep c hc
    rw [Nat.mul_comm] at ha₂ hb₂
    unfold Separate at hsep
    unfold Apart Separate
    omega
  · rw [refill_eq h0 hwrap]
    intro c hc
    cases hc with
    | head => exact ⟨hpos,hend⟩
    | tail _ hc => exact h.range c hc
  · exact hfits

end Refill

/-- What `allocate` does when the list is empty: it takes the first block of a new chunk. -/
theorem next_allocate_refill (s : State) (x : Malloc)
    (hx : (s.refill size x).alloc.freeStore ≠ 0) :
    s.next size (.allocate x) = (s.refill size x).next size (.allocate x) ∧
      s.returned size x = (s.refill size x).returned size x := by
  have hstate := refill_of_ne hx size x
  rw [refill_alloc] at hx
  have htwice := alloc_refill_of_ne hx size x
  have hreturned : s.returned size x = (s.refill size x).returned size x := by
    simp only [State.returned,Allocator.allocate,refill_alloc,htwice]
  refine ⟨?_,hreturned⟩
  simp only [State.next,hstate,hreturned,Allocator.allocate,refill_alloc,htwice,refill_live]

end

end WebServer.FreeList
