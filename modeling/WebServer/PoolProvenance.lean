import WebServer.FreeList

/-!
# Pointers which the allocator did not make

The linking loop runs over `CHUNK - 1` blocks. The link of a chunk's last block
is whatever `malloc` left there, and `allocate` reads it as soon as all other
blocks of the chunk are live and the last one is taken too. Up to that point the
list is sound: as long as fewer than `CHUNK` blocks are live at once, one chunk
suffices, its last block is never taken, and every link that is read was written
by `allocate` or `deallocate`.
-/
namespace WebServer.PoolProvenance
open ByteMemory TransitionSystem PoolAllocator FreeList

/-- A block of one of the allocator's chunks that is not live. -/
def Available (size : ℕ) (s : State) (p : ℕ) : Prop := p ∈ s.blocks size ∧ p ∉ s.live

/-- `freeStore` is null or the address of a block that is not live. -/
def Owned (size : ℕ) (s : State) : Prop :=
  s.alloc.freeStore = 0 ∨ Available size s s.alloc.freeStore

/-- After the action `freeStore` is owned. `allocate` returns a block that was
available, or from a chunk which it obtains first, and the `next` field which it
reads was written by `allocate` or `deallocate`. -/
def Safe (size : ℕ) (s : State) (a : Action) : Prop :=
  Owned size (s.next size a) ∧ ∀ x, a = .allocate x →
    (s.alloc.freeStore = 0 ∨ Available size s (s.returned size x)) ∧
      s.returned size x ∈ (s.refill size x).linked

instance (size : ℕ) (s : State) (p : ℕ) : Decidable (Available size s p) :=
  inferInstanceAs (Decidable (_ ∧ _))

instance (size : ℕ) (s : State) : Decidable (Owned size s) :=
  inferInstanceAs (Decidable (_ ∨ _))

/-- No call makes `CHUNK` blocks live at once. -/
def Spare : Discipline State Action
  | s, .allocate _ => s.live.length+1 < chunk
  | _, _ => True

/-- The state after the first chunk was obtained: the list leads to the last
block `z` of the chunk, whose link nobody has written. -/
structure Solid (size : ℕ) (s : State) (free : List ℕ) (z : ℕ) : Prop where
  single : s.chunks.length = 1
  threaded : Threaded size s free [z] z
  unwritten : z ∉ s.linked
  written : ∀ b ∈ s.blocks size, b ≠ z → b ∈ s.linked

section
variable {size : ℕ} {s : State} {free : List ℕ} {z : ℕ}

theorem length_blocks (size : ℕ) (s : State) :
    (s.blocks size).length = s.chunks.length*chunk := by
  simp [State.blocks,List.length_flatMap]

theorem Solid.count (h : Solid size s free z) : free.length+1+s.live.length = chunk := by
  have hlen := h.threaded.blocks.length_eq
  rw [length_blocks,h.single] at hlen
  simp only [List.length_append,List.length_singleton] at hlen
  omega

theorem Solid.available_of_free (h : Solid size s free z) (hsize : 0 < size) {b : ℕ}
    (hb : b ∈ free++[z]) : Available size s b := by
  have hnodup := h.threaded.nodup hsize
  rw [← List.append_assoc] at hnodup
  have hblocks := h.threaded.blocks
  rw [← List.append_assoc] at hblocks
  constructor
  · exact hblocks.mem_iff.mp (List.mem_append_left _ hb)
  · intro hlive
    exact (List.nodup_append.mp hnodup).2.2 b hb b hlive rfl

theorem Solid.freeStore_mem (h : Solid size s free z) : s.alloc.freeStore ∈ free++[z] := by
  have hchain := h.threaded.chain
  cases free with
  | nil =>
      have hz : s.alloc.freeStore = z := hchain
      simp [hz]
  | cons b free => simp [hchain.1]

theorem Solid.owned (h : Solid size s free z) (hsize : 0 < size) : Owned size s :=
  .inr (h.available_of_free hsize h.freeStore_mem)

/-! ## Steps -/

theorem Solid.use (h : Solid size s free z) (hsize : wordSize ≤ size) {p i : ℕ}
    (hp : p ∈ s.live) (hi : i < size) (b : UInt8) :
    Solid size (s.next size (.use p i b)) free z where
  single := h.single
  threaded := h.threaded.use hsize hp hi b
  unwritten := h.unwritten
  written := h.written

theorem Solid.deallocate (h : Solid size s free z) (hsize : wordSize ≤ size) {p : ℕ}
    (hp : p ∈ s.live) : Solid size (s.next size (.deallocate p)) (p::free) z where
  single := h.single
  threaded := h.threaded.deallocate hsize hp
  unwritten := by
    have hpos : 0 < size := Nat.lt_of_lt_of_le (by decide) hsize
    have hz := h.available_of_free hpos (b := z) (by simp)
    intro hmem
    cases hmem with
    | head => exact hz.2 hp
    | tail _ hmem => exact h.unwritten hmem
  written b hb hne := List.mem_cons_of_mem _ (h.written b hb hne)

theorem Solid.pop {b : ℕ} (h : Solid size s (b::free) z) (x : Malloc) :
    Solid size (s.next size (.allocate x)) free z := by
  obtain ⟨hrefill,-,hnext⟩ := h.threaded.pop x
  have hlinked : (s.next size (.allocate x)).linked = s.linked := by
    simp only [State.next]
    rw [hrefill]
  constructor
  · rw [next_allocate_chunks,hrefill]
    exact h.single
  · exact hnext
  · rw [hlinked]
    exact h.unwritten
  · rw [hlinked,next_allocate_blocks,hrefill]
    exact h.written

/-- The first block of the list is available, and its link has been written. -/
theorem Solid.pop_safe {b : ℕ} (h : Solid size s (b::free) z) (hsize : 0 < size) (x : Malloc) :
    Available size s (s.returned size x) ∧ s.returned size x ∈ (s.refill size x).linked := by
  obtain ⟨hrefill,hreturned,-⟩ := h.threaded.pop x
  have havailable := h.available_of_free hsize (b := b) (by simp)
  rw [hreturned,hrefill]
  refine ⟨havailable,h.written b havailable.1 ?_⟩
  rintro rfl
  have hnodup := h.threaded.nodup hsize
  simp at hnodup

/-- When only the last block is left, `allocate` reads the link which nobody wrote. -/
theorem Solid.last (h : Solid size s [] z) (x : Malloc) :
    s.returned size x ∉ (s.refill size x).linked := by
  have hstore : s.alloc.freeStore = z := h.threaded.chain
  have hne : s.alloc.freeStore ≠ 0 := by
    rw [hstore]
    exact Nat.ne_of_gt (h.threaded.address (by simp)).1
  have hreturned : s.returned size x = z := by
    rw [State.returned,Allocator.allocate,alloc_refill_of_ne hne,Allocator.pop,hstore]
  rw [hreturned,refill_of_ne hne]
  exact h.unwritten

/-- The first chunk. -/
theorem solid_refill (h : Threaded size s [] [] 0) (hchunks : s.chunks = [])
    (hlinked : s.linked = []) (hsize : wordSize ≤ size) (hwrap : size*chunk < 2^64) {x : Malloc}
    (hx : s.fresh size x) : Solid size (s.refill size x) (carve size (chunk-1) x.base)
      (x.base+(chunk-1)*size) := by
  have h0 : s.alloc.freeStore = 0 := h.chain
  have hpos : 0 < size := Nat.lt_of_lt_of_le (by decide) hsize
  have hthreaded := h.refill h0 hsize hwrap hx
  have hlinks : (s.refill size x).linked = carve size (chunk-1) x.base := by
    rw [refill_eq h0 hwrap]
    simp [hlinked]
  have hblocks : (s.refill size x).blocks size =
      carve size (chunk-1) x.base++[x.base+(chunk-1)*size] := by
    rw [← last_block,refill_eq h0 hwrap]
    simp [State.blocks,hchunks]
  constructor
  · rw [refill_eq h0 hwrap]
    simp [hchunks]
  · exact hthreaded
  · rw [hlinks]
    intro hmem
    exact (List.nodup_append.mp (hthreaded.nodup hpos)).2.2 _ hmem _ (by simp) rfl
  · rw [hlinks,hblocks]
    intro b hb hne
    simpa [hne] using hb

/-! ## Runs -/

/-- No chunk has been obtained yet, or the first one lasts. -/
def Sound (size : ℕ) (s : State) : Prop :=
  (s.chunks = [] ∧ s.linked = [] ∧ Threaded size s [] [] 0) ∨ ∃ free z, Solid size s free z

theorem Sound.owned (h : Sound size s) (hsize : 0 < size) : Owned size s := by
  rcases h with ⟨-,-,h⟩ | ⟨free,z,h⟩
  · exact .inl h.chain
  · exact h.owned hsize

theorem live_of_no_chunk (h : Threaded size s [] [] 0) (hchunks : s.chunks = []) :
    s.live = [] := by
  have hblocks := h.blocks
  rw [State.blocks,hchunks] at hblocks
  simpa using hblocks

/-- An action that leaves a block to spare is safe and keeps the state sound. -/
theorem Sound.next (h : Sound size s) (hsize : wordSize ≤ size) (hwrap : size*chunk < 2^64)
    {a : Action} (hspare : Spare s a) (ha : s.enabled size a) :
    Sound size (s.next size a) ∧ Safe size s a := by
  have hpos : 0 < size := Nat.lt_of_lt_of_le (by decide) hsize
  cases a with
  | allocate x =>
      have hspare : s.live.length+1 < chunk := hspare
      rcases h with ⟨hchunks,hlinked,h⟩ | ⟨free,z,h⟩
      · have hsolid := solid_refill h hchunks hlinked hsize hwrap (ha h.chain)
        have hcount : chunk-1 = (chunk-2)+1 := by omega
        rw [hcount,carve] at hsolid
        have hne : (s.refill size x).alloc.freeStore ≠ 0 := by
          rw [hsolid.threaded.chain.1]
          exact Nat.ne_of_gt (hsolid.threaded.address (by simp)).1
        obtain ⟨hnext,hreturned⟩ := next_allocate_refill s x hne
        have hlast := hsolid.pop x
        have hread := (hsolid.pop_safe hpos x).2
        rw [(hsolid.threaded.pop x).1,← hreturned] at hread
        rw [← hnext] at hlast
        refine ⟨.inr ⟨_,_,hlast⟩,hlast.owned hpos,?_⟩
        intro y hy
        cases hy
        exact ⟨.inl h.chain,hread⟩
      · have hcount := h.count
        cases free with
        | nil =>
            rw [List.length_nil] at hcount
            omega
        | cons b free =>
            obtain ⟨havailable,hread⟩ := h.pop_safe hpos x
            refine ⟨.inr ⟨_,_,h.pop x⟩,(h.pop x).owned hpos,?_⟩
            intro y hy
            cases hy
            exact ⟨.inr havailable,hread⟩
  | deallocate p =>
      rcases h with ⟨hchunks,-,h⟩ | ⟨free,z,h⟩
      · have hp : p ∈ s.live := ha
        simp [live_of_no_chunk h hchunks] at hp
      · have hnext := h.deallocate hsize ha
        exact ⟨.inr ⟨_,_,hnext⟩,hnext.owned hpos,fun y hy => by cases hy⟩
  | use p i b =>
      rcases h with ⟨hchunks,-,h⟩ | ⟨free,z,h⟩
      · have hp : p ∈ s.live := ha.1
        simp [live_of_no_chunk h hchunks] at hp
      · have hnext := h.use hsize ha.1 ha.2 b
        exact ⟨.inr ⟨_,_,hnext⟩,hnext.owned hpos,fun y hy => by cases hy⟩

theorem sound (hsize : wordSize ≤ size) (hwrap : size*chunk < 2^64)
    (h : (pool size).Reach Spare s) : Sound size s := by
  refine h.invariant ?_ ?_
  · rintro s ⟨m,rfl⟩
    exact .inl ⟨rfl,rfl,threaded_initial size m⟩
  · rintro s a t - hs hspare ⟨ha,rfl⟩
    exact (hs.next hsize hwrap hspare ha).1

/-- As long as every call has left a block to spare, `freeStore` is owned, and
the next call is safe exactly if it leaves a block to spare as well. -/
theorem links_are_own_iff (hsize : wordSize ≤ size) (hwrap : size*chunk < 2^64)
    (h : (pool size).Reach Spare s) :
    Owned size s ∧ ∀ a, s.enabled size a → (Safe size s a ↔ Spare s a) := by
  have hs := sound hsize hwrap h
  have hpos : 0 < size := Nat.lt_of_lt_of_le (by decide) hsize
  refine ⟨hs.owned hpos,fun a ha => ⟨?_,fun hspare => (hs.next hsize hwrap hspare ha).2⟩⟩
  intro hsafe
  cases a with
  | allocate x =>
      have hread := (hsafe.2 x rfl).2
      rcases hs with ⟨hchunks,-,hs⟩ | ⟨free,z,hs⟩
      · have hlive := live_of_no_chunk hs hchunks
        change s.live.length+1 < chunk
        rw [hlive]
        unfold chunk
        decide
      · have hcount := hs.count
        cases free with
        | nil => exact (hs.last x hread).elim
        | cons b free =>
            change s.live.length+1 < chunk
            rw [List.length_cons] at hcount
            omega
  | deallocate p => trivial
  | use p i b => trivial

end

/-- What `malloc` returns is full of old data. -/
def recycled : Malloc := ⟨65536,fun _ => 170⟩

instance (s : State) : (a : Action) → Decidable (Spare s a)
  | .allocate _ => inferInstanceAs (Decidable (s.live.length+1 < chunk))
  | .deallocate _ | .use _ _ _ => isTrue trivial

/-- Objects of the size of a `ConnectionContext`, and recycled memory: nineteen
allocations leave a block to spare. -/
theorem links_are_own_iff_recycled : ∃ s, (pool 4216).Reach Spare s ∧ s.live.length = 19 ∧
    ¬ Safe 4216 s (.allocate recycled) := by
  obtain ⟨s,hs,hlive⟩ := reach_of_script (G := Spare) 4216 (fun _ => 0)
    (List.replicate 19 (.allocate recycled))
    (fun s => decide (s.live.length = 19 ∧ s.enabled 4216 (.allocate recycled))) (by decide +kernel)
  obtain ⟨hlength,ha⟩ := of_decide_eq_true hlive
  have hiff := (links_are_own_iff (by decide) (by unfold chunk; decide) hs).2 _ ha
  refine ⟨s,hs,hlength,fun hsafe => ?_⟩
  have hspare : s.live.length+1 < chunk := hiff.mp hsafe
  rw [hlength] at hspare
  unfold chunk at hspare
  omega

/-- The twentieth allocation from a recycled chunk leaves a pointer in `freeStore`
that is made of old data. -/
theorem not_everyLinkOwn : ¬ ∀ size, wordSize ≤ size → ∀ s, (pool size).Reach Free s →
    Owned size s := by
  intro h
  obtain ⟨s,hs,howned⟩ := reach_of_script (G := Free) 4216 (fun _ => 0)
    (List.replicate 20 (.allocate recycled)) (fun s => decide ¬ Owned 4216 s) (by decide +kernel)
  exact of_decide_eq_true howned (h 4216 (by decide) s hs)

end WebServer.PoolProvenance
