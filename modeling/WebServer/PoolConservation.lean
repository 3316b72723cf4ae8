import WebServer.FreeList

/-!
# No block is lost

With chunks of zeroed memory the link of a chunk's last block is null before
anybody has written it, so that the free list always ends in null and holds
every block that is not live. Whatever the owners write, the blocks of the
chunks are divided into the free list and the live blocks.
-/
namespace WebServer.PoolConservation
open ByteMemory TransitionSystem PoolAllocator FreeList

/-- The memory which `malloc` returns is filled with zero. -/
def Zeroed (size : ℕ) : Discipline State Action
  | _, .allocate x => ∀ i < chunkBytes size, x.content (x.base+i) = 0
  | _, _ => True

instance (size : ℕ) (s : State) : (a : Action) → Decidable (Zeroed size s a)
  | .allocate x =>
      inferInstanceAs (Decidable (∀ i < chunkBytes size, x.content (x.base+i) = 0))
  | .deallocate _ | .use _ _ _ => isTrue trivial

section
variable {size : ℕ} {s : State} {free : List ℕ}

/-- With zeroed memory a new chunk is a list of all its blocks. -/
theorem threaded_refill (h : Threaded size s [] [] 0) (hsize : wordSize ≤ size)
    (hwrap : size*chunk < 2^64) {x : Malloc} (hz : Zeroed size s (.allocate x))
    (hx : s.fresh size x) : Threaded size (s.refill size x) (carve size chunk x.base) [] 0 := by
  have h0 : s.alloc.freeStore = 0 := h.chain
  have hlink : loadWord (s.refill size x).alloc.memory (x.base+(chunk-1)*size) = 0 := by
    rw [refill_last h0 hsize hwrap hx]
    apply loadWord_zero
    intro i hi hi'
    have hend := last_block_end size
    have hoff := hz (i-x.base) (by rw [chunkBytes_eq hwrap]; unfold wordSize at *; omega)
    rwa [Nat.add_sub_cancel' (by omega)] at hoff
  rw [last_block]
  exact (h.refill h0 hsize hwrap hx).extend hlink (by decide)

theorem threaded_next (h : Threaded size s free [] 0) (hsize : wordSize ≤ size)
    (hwrap : size*chunk < 2^64) {a : Action} (hz : Zeroed size s a) (ha : s.enabled size a) :
    ∃ free', Threaded size (s.next size a) free' [] 0 := by
  cases a with
  | allocate x =>
      cases free with
      | nil =>
          have hrefill := threaded_refill h hsize hwrap hz (ha h.chain)
          have hcarve : carve size chunk x.base =
              x.base::carve size (chunk-1) (x.base+size) := by
            rw [← Nat.sub_add_cancel chunk_pos]
            rfl
          rw [hcarve] at hrefill
          have hne : (s.refill size x).alloc.freeStore ≠ 0 := by
            rw [hrefill.chain.1]
            exact Nat.ne_of_gt (hrefill.address (by simp)).1
          rw [(next_allocate_refill s x hne).1]
          exact ⟨_,(hrefill.pop x).2.2⟩
      | cons b free => exact ⟨_,(h.pop x).2.2⟩
  | deallocate p => exact ⟨_,h.deallocate hsize ha⟩
  | use p i b => exact ⟨_,h.use hsize ha.1 ha.2 b⟩

theorem threaded (hsize : wordSize ≤ size) (hwrap : size*chunk < 2^64)
    (h : (pool size).Reach (Zeroed size) s) : ∃ free, Threaded size s free [] 0 := by
  refine h.invariant (I := fun s => ∃ free, Threaded size s free [] 0) ?_ ?_
  · rintro s ⟨m,rfl⟩
    exact ⟨[],threaded_initial size m⟩
  · rintro s a t - ⟨free,hs⟩ hz ⟨ha,rfl⟩
    exact threaded_next hs hsize hwrap hz ha

/-- Only an empty list makes `allocate` ask for a chunk. -/
theorem empty_of_new_chunk (h : Threaded size s free [] 0) {x : Malloc}
    (hx : (s.next size (.allocate x)).chunks ≠ s.chunks) : free = [] := by
  cases free with
  | nil => rfl
  | cons b free =>
      rw [next_allocate_chunks,(h.pop x).1] at hx
      exact (hx rfl).elim

/-- The free list is finite, meets no block twice and ends in null; together with
the live blocks it holds every block of every chunk once, and none of them
overlap. A chunk is obtained only when every block is live, and `allocate` after
`deallocate(p)` returns `p`. -/
theorem pool_conserves_blocks (hsize : wordSize ≤ size) (hwrap : size*chunk < 2^64)
    (h : (pool size).Reach (Zeroed size) s) :
    (∃ free, Chain (loadWord s.alloc.memory) s.alloc.freeStore free 0 ∧ 0 ∉ free ∧
      (free++s.live).Nodup ∧ (free++s.live).Perm (s.blocks size) ∧
      (free++s.live).Pairwise (Apart size)) ∧
    (∀ x, (s.next size (.allocate x)).chunks ≠ s.chunks → s.live.Perm (s.blocks size)) ∧
    ∀ p ∈ s.live, ∀ x, (s.next size (.deallocate p)).returned size x = p := by
  obtain ⟨free,hs⟩ := threaded hsize hwrap h
  have hpos : 0 < size := Nat.lt_of_lt_of_le (by decide) hsize
  constructor
  · refine ⟨free,hs.chain,?_,hs.nodup hpos,hs.blocks,hs.pairwise⟩
    intro hmem
    exact (hs.address (List.mem_append_left _ hmem)).1.false
  · constructor
    · intro x hx
      have hfree := empty_of_new_chunk hs hx
      have hblocks := hs.blocks
      rwa [hfree] at hblocks
    · intro p hp x
      exact ((hs.deallocate hsize hp).pop x).2.1

end

/-- Two objects of eight bytes are allocated, one is scribbled over and given back. -/
def scribble : List Action :=
  let x : Malloc := ⟨4096,fun _ => 0⟩
  [.allocate x,.allocate x,.use 4096 7 255,.deallocate 4096]

theorem pool_conserves_blocks_scribbled : ∃ s, (pool 8).Reach (Zeroed 8) s ∧ s.live = [4104] ∧
    ∃ free, Chain (loadWord s.alloc.memory) s.alloc.freeStore free 0 ∧
      (free++s.live).Perm (s.blocks 8) := by
  obtain ⟨s,hs,hlive⟩ := reach_of_script (G := Zeroed 8) 8 (fun _ => 0) scribble
    (fun s => decide (s.live = [4104])) (by decide +kernel)
  obtain ⟨⟨free,hchain,-,-,hblocks,-⟩,-⟩ :=
    pool_conserves_blocks (by decide) (by unfold chunk; decide) hs
  exact ⟨s,hs,of_decide_eq_true hlive,free,hchain,hblocks⟩

end WebServer.PoolConservation
