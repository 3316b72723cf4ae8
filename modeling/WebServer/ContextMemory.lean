import WebServer.Reclamation
import WebServer.PoolConservation
import WebServer.PoolProvenance

/-!
# Where the contexts live

`new ConnectionContext` and `delete` call the pool allocator, which is not
synchronised. Here the server runs over the bytes of the allocator: `create`
takes a block, a deletion gives it back, and whoever uses a context may write
any byte of its block at any time. The two models fit together: the server keeps
the contract of the allocator, the contexts that exist have the live blocks, and
the bytes of one change only by its own users.
-/
namespace WebServer.ContextMemory
open ByteMemory TransitionSystem Contexts Handler Server Lifecycle LifecycleInvariant
open Projection Ownership References PoolAllocator FreeList
open ThreadPool (Worker)

/-- The server, the allocator of the contexts, and the block of each context. -/
structure State (N : ℕ) where
  server : Server.State N
  memory : PoolAllocator.State
  block : ConnId → ℕ

/-- A step of the server, with what `malloc` would return; or the user of a
context writes the byte at offset `i`. -/
inductive Action (N : ℕ) where
  | server (a : Server.Action N) (x : Malloc)
  | use (c : ConnId) (i : ℕ) (b : UInt8)

variable {N : ℕ}

def State.initial (N : ℕ) (m : Memory) : State N := ⟨.initial N,.initial m,fun _ => 0⟩

/-- The context which an action deletes: after a failed `EPOLL_CTL_ADD`, or with the
release of the last reference. -/
def deleting (s : Server.State N) : Server.Action N → Option ConnId
  | .delete => some s.loop.conn
  | .work w _ =>
      match s.pool.workers w with
      | .running t =>
          match t.code with
          | .op .release _ => if (s.heap t.conn).ctx.lastRef then some t.conn else none
          | _ => none
      | _ => none
  | _ => none

/-- What an action asks of the allocator. -/
def State.call (s : State N) (x : Malloc) : Server.Action N → Option PoolAllocator.Action
  | .create => some (.allocate x)
  | a => (deleting s.server a).map fun c => .deallocate (s.block c)

/-- Where the contexts are after an action. -/
def State.place (size : ℕ) (s : State N) (x : Malloc) : Server.Action N → ConnId → ℕ
  | .create => Function.update s.block s.server.loop.conn (s.memory.returned size x)
  | _ => s.block

def RunsOn (c : ConnId) : Worker ConnId Task → Prop
  | .running t => t.conn = c
  | _ => False

/-- Who may write into a context: `AcceptLoop`, which constructs it, takes a reference or
is about to destroy it, and the tasks of the connection. -/
def Uses (s : Server.State N) (c : ConnId) : Prop :=
  ((s.loop.pos = .add ∨ s.loop.pos = .delete) ∧ s.loop.conn = c) ∨
    s.loop.batch.head? = some (.ctx c) ∨ ∃ w, RunsOn c (s.pool.workers w)

/-- `malloc` succeeds if it is called. -/
def State.answered (size : ℕ) (s : State N) (x : Malloc) : Server.Action N → Prop
  | .create => s.memory.enabled size (.allocate x)
  | _ => True

def State.enabled (cfg : Config) (size : ℕ) (s : State N) : Action N → Prop
  | .server a x => s.server.enabled cfg a ∧ s.answered size x a
  | .use c i _ => Uses s.server c ∧ i < size

def State.next (cfg : Config) (size : ℕ) (s : State N) : Action N → State N
  | .server a x =>
      { server := s.server.next cfg a
        memory := (s.call x a).elim s.memory (s.memory.next size)
        block := s.place size x a }
  | .use c i b => {s with memory := s.memory.next size (.use (s.block c) i b)}

/-- The server over the allocator, where a context takes `size` bytes. -/
def system (N : ℕ) (cfg : Config) (size : ℕ) : System (State N) (Action N) :=
  System.guarded (fun s => ∃ m, s = State.initial N m) (State.enabled cfg size)
    (State.next cfg size)

/-- The memory which `malloc` returns is filled with zero. -/
def Zeroed (size : ℕ) : Discipline (State N) (Action N)
  | s, .server .create x => PoolConservation.Zeroed size s.memory (.allocate x)
  | _, _ => True

instance (c : ConnId) : (x : Worker ConnId Task) → Decidable (RunsOn c x)
  | .running t => inferInstanceAs (Decidable (t.conn = c))
  | .awake | .blocked | .holding _ | .notifying _ | .exited => isFalse id

instance (s : Server.State N) (c : ConnId) : Decidable (Uses s c) :=
  inferInstanceAs (Decidable (_ ∨ _ ∨ _))

instance (size : ℕ) (s : State N) (x : Malloc) :
    (a : Server.Action N) → Decidable (s.answered size x a)
  | .create => inferInstanceAs (Decidable (s.memory.enabled size (.allocate x)))
  | .epollWait _ | .epollError _ | .accept _ | .setNonblocking | .onConnection _ | .add _
  | .delete | .close | .addRef | .submit | .notify _ | .look _ | .wake _ | .invoke _ | .work _ _
  | .finish _ | .destroyMessage | .destroyConnection | .setStop | .notifyAll | .join =>
      isTrue trivial

instance (cfg : Config) (size : ℕ) (s : State N) : (a : Action N) → Decidable (s.enabled cfg size a)
  | .server a x => inferInstanceAs (Decidable (s.server.enabled cfg a ∧ s.answered size x a))
  | .use c i _ => inferInstanceAs (Decidable (Uses s.server c ∧ i < size))

variable {cfg : Config} {size : ℕ} {s : State N}

theorem reach_server {G : Discipline (State N) (Action N)} (h : (system N cfg size).Reach G s) :
    (Server.system N cfg).Reach Free s.server := by
  refine h.simulates (f := State.server) ?_ ?_
  · rintro _ ⟨m,rfl⟩
    rfl
  · rintro s a _ - - ⟨he,rfl⟩
    cases a with
    | server a x => exact .inr ⟨a,trivial,he.1,rfl⟩
    | use c i b => exact .inl rfl

/-- Cleared memory at `base`. -/
def cleared (base : ℕ) : Malloc := ⟨base,fun _ => 0⟩

/-- The steps of the server run over memory that `malloc` has cleared. -/
theorem reach_of_script (cfg : Config) (size base : ℕ) (as : List (Server.Action N))
    (p : State N → Bool)
    (h : (execute (fun s a => s.enabled cfg size (.server a (cleared base)))
      (fun s a => s.next cfg size (.server a (cleared base)))
      (State.initial N fun _ => 0) as).any p = true) :
    ∃ s, (system N cfg size).Reach (Zeroed size) s ∧ p s = true := by
  have hcheck : ∀ (s : State N) (a : Server.Action N),
      s.enabled cfg size (.server a (cleared base)) →
      Free s a ∧ s.enabled cfg size (.server a (cleared base)) := fun _ _ he => ⟨trivial,he⟩
  obtain ⟨s,hs,hp⟩ := execute_reach (fun s => s = State.initial N fun _ => 0) hcheck rfl h
  refine ⟨s,hs.simulates (f := id) ?_ ?_,hp⟩
  · rintro _ rfl
    exact ⟨_,rfl⟩
  · rintro s a _ - - ⟨he,rfl⟩
    refine .inr ⟨.server a (cleared base),?_,he,rfl⟩
    cases a with
    | create => exact fun _ _ => rfl
    | _ => trivial

/-! ## The contexts that exist -/

section Contexts
variable {s : Server.State N}

theorem live_of_add {v : Conn} (h : Ok cfg v) (hpos : v.pos = .add) : v.cell.live := by
  cases h with
  | created fd => exact ⟨rfl,rfl⟩
  | live hl => rcases hl.pos with hp | hp | hp <;> simp [hp] at hpos
  | _ => simp [Conn.blank,opening] at hpos

theorem not_live_of_create {v : Conn} (h : Ok cfg v) (hpos : v.pos = .create) :
    ¬ v.cell.live := by
  cases h with
  | called fd => simp [opening,Cell.live]
  | live hl => rcases hl.pos with hp | hp | hp <;> simp [hp] at hpos
  | _ => simp [Conn.blank,opening] at hpos

/-- Whoever uses a context finds that it exists. -/
theorem live_of_uses (h : (Server.system N cfg).Reach Free s) {c : ConnId} (hc : Uses s c) :
    (s.heap c).live := by
  rcases hc with ⟨hpos | hpos,rfl⟩ | hc | ⟨w,hc⟩
  · exact live_of_add (view_ok h s.loop.conn) ((standsAt_self (by simp [hpos])).trans hpos)
  · exact live_of_delete (view_ok h s.loop.conn) ((standsAt_self (by simp [hpos])).trans hpos)
  · exact live_of_event h hc
  · cases hw : s.pool.workers w with
    | running t =>
        rw [hw] at hc
        have hconn : t.conn = c := hc
        exact hconn ▸ live_of_running h hw
    | _ => simp [hw,RunsOn] at hc

/-- No release of a task is the last one. -/
theorem deleting_work (h : (Server.system N cfg).Reach Free s) {w : Fin N}
    {answer : (o : Op) → o.Res} (he : s.enabled cfg (.work w answer)) :
    deleting s (.work w answer) = none := by
  obtain ⟨t,o,k,hw,hcode,-⟩ := canWork_cases he.2
  have hnext : (s.next cfg (.work w answer)).pool.workers w =
      .running (t.advance (k (answer o)) o (answer o)) := by
    rw [Server.State.next,work_eq hw hcode]
    exact ThreadPool.workers_setWorker ..
  have hlive := live_of_running (h.step (G := Free) trivial ⟨he,rfl⟩) hnext
  rw [advance_conn,Server.State.next,work_eq hw hcode] at hlive
  have hdeletes : ((s.heap t.conn).perform cfg o (answer o)).deletes = 0 := by
    simpa using hlive.2
  simp only [deleting,hw,hcode]
  cases o with
  | release =>
      have hlast : (s.heap t.conn).ctx.lastRef = false := by
        by_contra hlast
        rw [Bool.not_eq_false] at hlast
        have hlast' : ConnectionContext.lastRef {(s.heap t.conn).ctx with
            toSession := (semantics cfg.onMessage).effect .release (answer .release)
              (s.heap t.conn).ctx.toSession} = true := hlast
        simp [Cell.perform,hlast'] at hdeletes
      simp [hlast]
  | _ => rfl

/-- How many connections have been registered. -/
def registrations (s : Server.State N) : ℕ := s.trace.countP fun x => registers x.2

/-- The context which is constructed and not registered yet. -/
def settingUp (l : AcceptLoop) : ℕ := if l.pos = .add ∨ l.pos = .delete then 1 else 0

/-- Neither the contexts that exist nor their number have changed. -/
structure Kept (s t : Server.State N) : Prop where
  exist : ∀ c, (t.heap c).live ↔ (s.heap c).live
  grows : registrations s ≤ registrations t
  count : registrations t+settingUp t.loop = registrations s+settingUp s.loop

theorem kept_of_recorded {t : Server.State N} (es : List (ConnId × Event))
    (hexist : ∀ c, (t.heap c).live ↔ (s.heap c).live) (htrace : t.trace = s.trace++es)
    (hcount : es.countP (fun x => registers x.2)+settingUp t.loop = settingUp s.loop) :
    Kept s t := by
  have hregistrations : registrations t =
      registrations s+es.countP (fun x => registers x.2) := by
    rw [registrations,htrace,List.countP_append]
    rfl
  exact ⟨hexist,by omega,by omega⟩

/-- A step that records nothing. -/
theorem kept_of_silent {t : Server.State N} (hheap : t.heap = s.heap) (htrace : t.trace = s.trace)
    (hset : settingUp t.loop = settingUp s.loop) : Kept s t := by
  refine kept_of_recorded [] (fun c => by rw [hheap]) ?_ ?_
  · rw [htrace,List.append_nil]
  · rw [hset,List.countP_nil,Nat.zero_add]

/-- Only the steps which construct or delete a context change what exists. -/
theorem kept (h : (Server.system N cfg).Reach Free s) {a : Server.Action N}
    (he : s.enabled cfg a) (hcreate : a ≠ .create) (hdelete : a ≠ .delete) :
    Kept s (s.next cfg a) := by
  have hr := he.2
  cases a with
  | epollWait ready => exact kept_of_silent rfl rfl rfl
  | epollError interrupted =>
      have hpos : s.loop.pos = .fetch := hr.1
      refine kept_of_silent rfl rfl ?_
      cases interrupted <;> simp [Server.State.next,State.goto,settingUp,hpos]
  | accept fd =>
      have hpos : s.loop.pos = .fetch := hr.1
      cases fd with
      | none => exact kept_of_silent rfl rfl rfl
      | some f =>
          exact kept_of_recorded [(s.accepted,.accepted)] (fun _ => .rfl) rfl
            (by simp [Server.State.next,State.accept,settingUp,hpos,registers])
  | setNonblocking =>
      have hpos : s.loop.pos = .setNonblocking := hr
      exact kept_of_silent rfl rfl
        (by simp [Server.State.next,State.goto,settingUp,hpos])
  | onConnection outcome =>
      have hpos : s.loop.pos = .onConnection := hr.1
      simp only [Server.State.next,State.callConnection]
      split
      · exact kept_of_recorded [(s.loop.conn,.onConnection)] (fun _ => .rfl) rfl
          (by simp [State.goto,settingUp,hpos,registers])
      · exact kept_of_silent rfl rfl
          (by simp [State.goto,settingUp,hpos])
  | create => exact (hcreate rfl).elim
  | add ok =>
      have hpos : s.loop.pos = .add := hr.1
      cases ok with
      | true =>
          exact kept_of_recorded [(s.loop.conn,.added true)] (fun _ => .rfl) rfl
            (by simp [Server.State.next,State.add,State.goto,settingUp,hpos,registers])
      | false =>
          exact kept_of_recorded [(s.loop.conn,.added false)] (fun _ => .rfl) rfl
            (by simp [Server.State.next,State.add,State.goto,settingUp,hpos,registers])
  | delete => exact (hdelete rfl).elim
  | close =>
      have hpos : s.loop.pos = .close := hr
      exact kept_of_recorded [(s.loop.conn,.closed)] (fun _ => .rfl) rfl
        (by simp [Server.State.next,State.close,State.goto,settingUp,hpos,registers])
  | addRef =>
      obtain ⟨hpos,d,hd⟩ := hr
      obtain ⟨batch,hb⟩ := List.head?_eq_some_iff.mp hd
      simp only [Server.State.next,State.addRef,hb]
      refine kept_of_recorded [(d,.addRef)] (fun c => ?_) rfl (by simp [settingUp,hpos,registers])
      by_cases hc : c = d
      · subst hc
        simp [State.record,State.setCell,Cell.live]
      · simp [State.record,State.setCell,hc]
  | submit =>
      have hpos : s.loop.pos = .submit := hr.1
      exact kept_of_silent rfl rfl
        (by simp [Server.State.next,State.goto,State.setPool,settingUp,hpos])
  | notify woken =>
      have hpos : s.loop.pos = .notify := hr.1
      exact kept_of_silent rfl rfl
        (by simp [Server.State.next,State.goto,State.setPool,settingUp,hpos])
  | work w answer =>
      obtain ⟨t,o,k,hw,hcode,-⟩ := canWork_cases hr
      have hnext : (s.next cfg (.work w answer)).pool.workers w =
          .running (t.advance (k (answer o)) o (answer o)) := by
        rw [Server.State.next,work_eq hw hcode]
        exact ThreadPool.workers_setWorker ..
      have hafter := live_of_running (h.step (G := Free) trivial ⟨he,rfl⟩) hnext
      rw [advance_conn] at hafter
      refine kept_of_recorded [(t.conn,.op o (answer o)
        ((s.heap t.conn).perform cfg o (answer o)).ctx.toSession)] (fun c => ?_)
        (by rw [Server.State.next,work_eq hw hcode])
        (by rw [Server.State.next,work_eq hw hcode]; simp [registers])
      by_cases hc : c = t.conn
      · subst hc
        exact iff_of_true hafter (live_of_running h hw)
      · rw [Server.State.next,work_eq hw hcode]
        simp [hc]
  | finish w =>
      obtain ⟨t,outcome,hw,hcode⟩ := canFinish_cases hr
      rw [Server.State.next,finish_eq hw hcode]
      exact kept_of_recorded [(t.conn,.finished outcome t)] (fun _ => .rfl) rfl
        (by simp [registers])
  | _ => exact kept_of_silent rfl rfl rfl

/-- `new ConnectionContext`. -/
theorem exist_create (cfg : Config) (c : ConnId) :
    ((s.next cfg .create).heap c).live ↔ c = s.loop.conn ∨ (s.heap c).live := by
  by_cases hc : c = s.loop.conn
  · simp [Server.State.next,State.create,State.setCell,State.record,State.goto,Cell.live,hc]
  · simp [Server.State.next,State.create,State.setCell,State.record,State.goto,hc]

/-- `delete ctx`. -/
theorem exist_delete (cfg : Config) (c : ConnId) :
    ((s.next cfg .delete).heap c).live ↔ c ≠ s.loop.conn ∧ (s.heap c).live := by
  by_cases hc : c = s.loop.conn
  · simp [Server.State.next,State.delete,State.setCell,State.record,State.goto,Cell.live,hc]
  · simp [Server.State.next,State.delete,State.setCell,State.record,State.goto,hc]

end Contexts

/-! ## The blocks of the contexts -/

/-- A chunk is obtained only when every block is live. -/
theorem full_of_new_chunk {m : PoolAllocator.State} (hsize : wordSize ≤ size)
    (hwrap : size*chunk < 2^64) (h : (pool size).Reach (PoolConservation.Zeroed size) m)
    {x : Malloc} (hx : (m.next size (.allocate x)).chunks ≠ m.chunks) :
    (m.next size (.allocate x)).chunks.length = m.chunks.length+1 ∧
      m.live.length = m.chunks.length*chunk := by
  obtain ⟨free,hthreaded⟩ := PoolConservation.threaded hsize hwrap h
  have hfree := PoolConservation.empty_of_new_chunk hthreaded hx
  subst hfree
  have hempty : m.alloc.freeStore = 0 := hthreaded.chain
  have hblocks := hthreaded.blocks.length_eq
  rw [PoolProvenance.length_blocks] at hblocks
  refine ⟨?_,by simpa using hblocks⟩
  rw [next_allocate_chunks,refill_eq hempty hwrap]
  rfl

/-- The contexts `cs` are those that exist, and the live blocks are theirs. -/
structure Stored (size : ℕ) (s : State N) (cs : List ConnId) : Prop where
  pool : (pool size).Reach (PoolConservation.Zeroed size) s.memory
  exist : ∀ c, c ∈ cs ↔ (s.server.heap c).live
  nodup : cs.Nodup
  blocks : s.memory.live.Perm (cs.map s.block)
  count : cs.length = registrations s.server+settingUp s.server.loop
  grown : chunk*s.memory.chunks.length ≤ registrations s.server+chunk

section Stored
variable {cs : List ConnId}

theorem stored_initial (m : Memory) : Stored size (State.initial N m) [] where
  pool := .start ⟨m,rfl⟩
  exist c := by simp [State.initial,Server.State.initial,Cell.live]
  nodup := .nil
  blocks := .nil
  count := by simp [State.initial,Server.State.initial,registrations,settingUp]
  grown := by simp [State.initial,PoolAllocator.State.initial]

theorem Stored.mem (h : Stored size s cs) {c : ConnId} (hc : (s.server.heap c).live) :
    s.block c ∈ s.memory.live :=
  h.blocks.mem_iff.mpr (List.mem_map_of_mem ((h.exist c).mpr hc))

theorem Stored.length (h : Stored size s cs) :
    s.memory.live.length = registrations s.server+settingUp s.server.loop := by
  rw [h.blocks.length_eq,List.length_map,h.count]

theorem Stored.create (h : Stored size s cs) (hsize : wordSize ≤ size)
    (hwrap : size*chunk < 2^64) (hreach : (Server.system N cfg).Reach Free s.server)
    (hpos : s.server.loop.pos = .create) {x : Malloc} (hx : s.memory.enabled size (.allocate x))
    (hz : PoolConservation.Zeroed size s.memory (.allocate x)) :
    Stored size (s.next cfg size (.server .create x)) (s.server.loop.conn::cs) := by
  have hnew : s.server.loop.conn ∉ cs := fun hmem =>
    not_live_of_create (view_ok hreach s.server.loop.conn)
      ((standsAt_self (by simp [hpos])).trans hpos) ((h.exist _).mp hmem)
  have hsame : registrations (s.server.next cfg .create) = registrations s.server := by
    simp [registrations,Server.State.next,State.create,State.record,State.goto,State.setCell,
      registers]
  have hbefore : settingUp s.server.loop = 0 := by simp [settingUp,hpos]
  constructor
  · exact h.pool.step hz ⟨hx,rfl⟩
  · intro c
    change _ ↔ ((s.server.next cfg .create).heap c).live
    rw [exist_create,List.mem_cons,h.exist]
  · exact h.nodup.cons hnew
  · have hplace : cs.map (Function.update s.block s.server.loop.conn
        (s.memory.returned size x)) = cs.map s.block := by
      refine List.map_congr_left fun c hc => Function.update_of_ne ?_ _ _
      rintro rfl
      exact hnew hc
    change (s.memory.returned size x::s.memory.live).Perm
      ((s.server.loop.conn::cs).map (Function.update s.block s.server.loop.conn
        (s.memory.returned size x)))
    rw [List.map_cons,Function.update_self,hplace]
    exact h.blocks.cons _
  · change cs.length+1 = registrations (s.server.next cfg .create)+1
    rw [hsame,h.count,hbefore]
  · have hgrown := h.grown
    change chunk*(s.memory.next size (.allocate x)).chunks.length ≤
      registrations (s.server.next cfg .create)+chunk
    rw [hsame]
    by_cases hchunks : (s.memory.next size (.allocate x)).chunks = s.memory.chunks
    · rwa [hchunks]
    · obtain ⟨hlength,hfull⟩ := full_of_new_chunk hsize hwrap h.pool hchunks
      rw [hlength,Nat.mul_succ,Nat.mul_comm,← hfull,h.length,hbefore]
      omega

theorem Stored.delete (h : Stored size s cs) (hreach : (Server.system N cfg).Reach Free s.server)
    (hpos : s.server.loop.pos = .delete) (x : Malloc) :
    Stored size (s.next cfg size (.server .delete x)) (cs.erase s.server.loop.conn) := by
  have hlive : (s.server.heap s.server.loop.conn).live :=
    live_of_delete (view_ok hreach s.server.loop.conn)
      ((standsAt_self (by simp [hpos])).trans hpos)
  have hmem := (h.exist _).mpr hlive
  have hsame : registrations (s.server.next cfg .delete) = registrations s.server := by
    simp [registrations,Server.State.next,State.delete,State.record,State.goto,State.setCell,
      registers]
  have hbefore : settingUp s.server.loop = 1 := by simp [settingUp,hpos]
  constructor
  · exact h.pool.step (a := .deallocate (s.block s.server.loop.conn)) trivial ⟨h.mem hlive,rfl⟩
  · intro c
    change _ ↔ ((s.server.next cfg .delete).heap c).live
    rw [exist_delete,h.nodup.mem_erase_iff,h.exist]
  · exact h.nodup.erase _
  · have hsplit : (cs.map s.block).Perm
        (s.block s.server.loop.conn::(cs.erase s.server.loop.conn).map s.block) :=
      (List.perm_cons_erase hmem).map s.block
    have herase := (h.blocks.trans hsplit).erase (s.block s.server.loop.conn)
    rwa [List.erase_cons_head] at herase
  · have hcount := h.count
    change (cs.erase s.server.loop.conn).length = registrations (s.server.next cfg .delete)+0
    rw [List.length_erase_of_mem hmem,hsame]
    omega
  · change chunk*s.memory.chunks.length ≤ registrations (s.server.next cfg .delete)+chunk
    rw [hsame]
    exact h.grown

/-- A step that asks nothing of the allocator. -/
theorem Stored.keep (h : Stored size s cs) {t : State N} (hk : Kept s.server t.server)
    (hmemory : t.memory = s.memory) (hblock : t.block = s.block) : Stored size t cs where
  pool := hmemory ▸ h.pool
  exist c := (h.exist c).trans (hk.exist c).symm
  nodup := h.nodup
  blocks := by
    rw [hmemory,hblock]
    exact h.blocks
  count := h.count.trans hk.count.symm
  grown := by
    rw [hmemory]
    exact h.grown.trans (Nat.add_le_add_right hk.grows _)

theorem Stored.use (h : Stored size s cs) (hreach : (Server.system N cfg).Reach Free s.server)
    {c : ConnId} {i : ℕ} (hc : Uses s.server c) (hi : i < size) (b : UInt8) :
    Stored size (s.next cfg size (.use c i b)) cs := by
  refine {h with pool := ?_}
  exact h.pool.step (a := .use (s.block c) i b) trivial
    ⟨⟨h.mem (live_of_uses hreach hc),hi⟩,rfl⟩

/-- Of all steps only `create` and `delete` of `AcceptLoop` call the allocator. -/
theorem call_eq_none (h : (Server.system N cfg).Reach Free s.server) {a : Server.Action N}
    (he : s.server.enabled cfg a) (hcreate : a ≠ .create) (hdelete : a ≠ .delete) (x : Malloc) :
    s.call x a = none := by
  cases a with
  | create => exact (hcreate rfl).elim
  | delete => exact (hdelete rfl).elim
  | work w answer =>
      change (deleting s.server (.work w answer)).map _ = none
      rw [deleting_work h he]
      rfl
  | _ => rfl

theorem place_of_ne {a : Server.Action N} (hcreate : a ≠ .create) (x : Malloc) :
    s.place size x a = s.block := by
  cases a with
  | create => exact (hcreate rfl).elim
  | _ => rfl

theorem stored (hsize : wordSize ≤ size) (hwrap : size*chunk < 2^64)
    (h : (system N cfg size).Reach (Zeroed size) s) : ∃ cs, Stored size s cs := by
  refine h.invariant (I := fun s => ∃ cs, Stored size s cs) ?_ ?_
  · rintro _ ⟨m,rfl⟩
    exact ⟨[],stored_initial m⟩
  · rintro s a _ hreach ⟨cs,hs⟩ hz ⟨he,rfl⟩
    have hserver := reach_server hreach
    cases a with
    | use c i b => exact ⟨cs,hs.use hserver he.1 he.2 b⟩
    | server a x =>
        by_cases hcreate : a = .create
        · subst hcreate
          exact ⟨_,hs.create hsize hwrap hserver he.1.2 he.2 hz⟩
        · by_cases hdelete : a = .delete
          · subst hdelete
            exact ⟨_,hs.delete hserver he.1.2 x⟩
          · refine ⟨cs,hs.keep (kept hserver he.1 hcreate hdelete) ?_ (place_of_ne hcreate x)⟩
            change (s.call x a).elim s.memory _ = s.memory
            rw [call_eq_none hserver he.1 hcreate hdelete x]
            rfl

/-- Blocks of two contexts do not overlap. -/
theorem Stored.apart (h : Stored size s cs) (hsize : wordSize ≤ size) (hwrap : size*chunk < 2^64)
    {c d : ConnId} (hne : c ≠ d) (hc : (s.server.heap c).live) (hd : (s.server.heap d).live) :
    Apart size (s.block c) (s.block d) := by
  obtain ⟨free,hthreaded⟩ := PoolConservation.threaded hsize hwrap h.pool
  have hlive : s.memory.live.Pairwise (Apart size) :=
    (List.pairwise_append.mp hthreaded.pairwise).2.1
  have hcs : (cs.map s.block).Pairwise (Apart size) :=
    (h.blocks.pairwise_iff fun hab => hab.symm).mp hlive
  have hsymm : Std.Symm fun a b => Apart size (s.block a) (s.block b) :=
    ⟨fun _ _ hab => Apart.symm hab⟩
  exact (List.pairwise_map.mp hcs).forall ((h.exist c).mpr hc) ((h.exist d).mpr hd) hne

end Stored

/-! ## Whose bytes change -/

section Frame
variable {m : PoolAllocator.State} {free : List ℕ} {p q : ℕ}

/-- `allocate` writes into a new chunk or not at all. -/
theorem allocate_outside (h : Threaded size m free [] 0) (hsize : wordSize ≤ size)
    (hwrap : size*chunk < 2^64) {x : Malloc} (hx : m.enabled size (.allocate x))
    (hp : p ∈ m.live) {i : ℕ} (hi : i < size) :
    (m.next size (.allocate x)).alloc.memory (p+i) = m.alloc.memory (p+i) := by
  change (m.alloc.refill size x).memory (p+i) = _
  by_cases hempty : m.alloc.freeStore = 0
  · have hblock : p ∈ m.blocks size :=
      h.blocks.mem_iff.mp (List.mem_append_right _ (List.mem_append_right _ hp))
    obtain ⟨c,hc,hpc⟩ := List.mem_flatMap.mp hblock
    obtain ⟨hle,hlt⟩ := range_of_mem_carve hpc
    obtain ⟨-,hend,hsep⟩ := hx hempty
    have hsep := hsep c hc
    have hlast := last_block_end size
    rw [chunkBytes_eq hwrap] at hend hsep
    rw [Nat.mul_comm] at hlt
    unfold Separate at hsep
    unfold wordSize at hsize
    rw [Allocator.refill,if_pos hempty]
    simp only
    rw [link_outside hsize (by omega) (by omega),Malloc.fill,chunkBytes_eq hwrap]
    exact if_neg (by omega)
  · rw [alloc_refill_of_ne hempty]

/-- `deallocate` writes into the block which it is given. -/
theorem deallocate_outside (hsize : wordSize ≤ size) (hpq : Apart size p q) {i : ℕ}
    (hi : i < size) : (m.next size (.deallocate q)).alloc.memory (p+i) = m.alloc.memory (p+i) := by
  apply write_outside
  rw [length_encode]
  unfold Apart Separate at hpq
  omega

theorem use_outside (hpq : Apart size p q) {i j : ℕ} (hi : i < size) (hj : j < size) (b : UInt8) :
    (m.next size (.use q j b)).alloc.memory (p+i) = m.alloc.memory (p+i) := by
  apply write_outside
  rw [List.length_singleton]
  unfold Apart Separate at hpq
  omega

end Frame

/-! ## Results -/

/-- The server keeps the contract of the allocator: blocks are given back only while
they are live, users write into live blocks only. The live blocks are those of the
contexts that exist, and no thread but `AcceptLoop` calls the allocator. -/
theorem allocator_contract_is_kept (hsize : wordSize ≤ size) (hwrap : size*chunk < 2^64)
    (s : State N) (h : (system N cfg size).Reach (Zeroed size) s) :
    (pool size).Reach (PoolConservation.Zeroed size) s.memory ∧
    (∃ cs : List ConnId, cs.Nodup ∧ (∀ c, c ∈ cs ↔ (s.server.heap c).live) ∧
      s.memory.live.Perm (cs.map s.block)) ∧
    (∀ c, Uses s.server c → s.block c ∈ s.memory.live) ∧
    ∀ w answer x, s.server.enabled cfg (.work w answer) → s.call x (.work w answer) = none := by
  obtain ⟨cs,hs⟩ := stored hsize hwrap h
  have hserver := reach_server h
  refine ⟨hs.pool,⟨cs,hs.nodup,hs.exist,hs.blocks⟩,fun c hc => ?_,fun w answer x he => ?_⟩
  · exact hs.mem (live_of_uses hserver hc)
  · exact call_eq_none hserver he (by simp) (by simp) x

/-- The first connection is dispatched to a task; a context takes 4216 bytes. -/
theorem allocator_contract_is_kept_dispatched : ∃ s : State 1,
    Uses s.server 0 ∧ s.block 0 ∈ s.memory.live := by
  obtain ⟨s,hs,hp⟩ := reach_of_script (N := 1) .standard 4216 65536
    (acceptScript 5 true++dispatchScript 5 0) (fun s => Uses s.server 0) (by decide +kernel)
  have huses : Uses s.server 0 := of_decide_eq_true hp
  exact ⟨s,huses,(allocator_contract_is_kept (by decide) (by unfold chunk; decide) s hs).2.2.1 0
    huses⟩

/-- The contexts occupy disjoint memory, and a step of whatever thread leaves the block
of a context where it is and all its bytes as they are, unless it is a write of one of
that context's own users. -/
theorem contexts_are_isolated (hsize : wordSize ≤ size) (hwrap : size*chunk < 2^64)
    (s : State N) (h : (system N cfg size).Reach (Zeroed size) s) :
    (∀ c d, c ≠ d → (s.server.heap c).live → (s.server.heap d).live →
      Apart size (s.block c) (s.block d)) ∧
    ∀ a t, (system N cfg size).step s a t → ∀ c, (s.server.heap c).live →
      (t.server.heap c).live → (∀ i b, a ≠ .use c i b) → t.block c = s.block c ∧
      ∀ i < size, t.memory.alloc.memory (t.block c+i) = s.memory.alloc.memory (s.block c+i) := by
  obtain ⟨cs,hs⟩ := stored hsize hwrap h
  have hserver := reach_server h
  refine ⟨fun c d hne => hs.apart hsize hwrap hne,?_⟩
  rintro a _ ⟨he,rfl⟩ c hc hct hother
  cases a with
  | use d i b =>
      have hne : c ≠ d := by
        rintro rfl
        exact hother i b rfl
      exact ⟨rfl,fun j hj =>
        use_outside (hs.apart hsize hwrap hne hc (live_of_uses hserver he.1)) hj he.2 b⟩
  | server a x =>
      by_cases hcreate : a = .create
      · subst hcreate
        obtain ⟨free,hthreaded⟩ := PoolConservation.threaded hsize hwrap hs.pool
        have hpos : s.server.loop.pos = .create := he.1.2
        have hne : c ≠ s.server.loop.conn := by
          rintro rfl
          exact not_live_of_create (view_ok hserver s.server.loop.conn)
            ((standsAt_self (by simp [hpos])).trans hpos) hc
        have hplace : (s.next cfg size (.server .create x)).block c = s.block c :=
          Function.update_of_ne hne _ _
        rw [hplace]
        exact ⟨rfl,fun i hi => allocate_outside hthreaded hsize hwrap he.2 (hs.mem hc) hi⟩
      · by_cases hdelete : a = .delete
        · subst hdelete
          have hpos : s.server.loop.pos = .delete := he.1.2
          have hlive := live_of_delete (view_ok hserver s.server.loop.conn)
            ((standsAt_self (by simp [hpos])).trans hpos)
          have hne := ((exist_delete cfg c).mp hct).1
          exact ⟨rfl,fun i hi =>
            deallocate_outside hsize (hs.apart hsize hwrap hne hc hlive) hi⟩
        · have hcall := call_eq_none hserver he.1 hcreate hdelete x
          have hmemory : (s.next cfg size (.server a x)).memory = s.memory := by
            change (s.call x a).elim s.memory _ = s.memory
            rw [hcall]
            rfl
          have hplace : (s.next cfg size (.server a x)).block = s.block := place_of_ne hcreate x
          rw [hmemory,hplace]
          exact ⟨rfl,fun _ _ => rfl⟩

/-- Two connections have been accepted. -/
theorem contexts_are_isolated_two : ∃ s : State 1, s.block 0 = 65536 ∧ s.block 1 = 69752 ∧
    Apart 4216 (s.block 0) (s.block 1) := by
  obtain ⟨s,hs,hp⟩ := reach_of_script (N := 1) .standard 4216 65536
    (acceptScript 5 true++acceptScript 6 true)
    (fun s => (s.server.heap 0).created && (s.server.heap 0).deletes = 0 &&
      (s.server.heap 1).created && (s.server.heap 1).deletes = 0 &&
      s.block 0 = 65536 && s.block 1 = 69752) (by decide +kernel)
  simp only [Bool.and_eq_true,decide_eq_true_eq] at hp
  obtain ⟨⟨⟨⟨⟨hc₀,hd₀⟩,hc₁⟩,hd₁⟩,hb₀⟩,hb₁⟩ := hp
  exact ⟨s,hb₀,hb₁,(contexts_are_isolated (by decide) (by unfold chunk; decide) s hs).1 0 1
    (by decide) ⟨hc₀,hd₀⟩ ⟨hc₁,hd₁⟩⟩

theorem chunks_next (cfg : Config) (size : ℕ) (s : State N) (a : Action N) :
    s.memory.chunks <:+ (s.next cfg size a).memory.chunks := by
  cases a with
  | use c i b => exact PoolAllocator.chunks_next size s.memory _
  | server a x =>
      change _ <:+ ((s.call x a).elim s.memory (s.memory.next size)).chunks
      cases s.call x a with
      | none => exact List.suffix_rfl
      | some b => exact PoolAllocator.chunks_next size s.memory b

/-- Every connection that has ever been registered keeps its block, closed or not: the
memory grows by a chunk for every `CHUNK` registrations and never shrinks. -/
theorem memory_grows_with_registrations (hsize : wordSize ≤ size) (hwrap : size*chunk < 2^64)
    (s : State N) (h : (system N cfg size).Reach (Zeroed size) s) :
    (∀ c, (view s.server c).registered → s.block c ∈ s.memory.live) ∧
    s.memory.live.length = registrations s.server+settingUp s.server.loop ∧
    registrations s.server ≤ chunk*s.memory.chunks.length ∧
    chunk*s.memory.chunks.length ≤ registrations s.server+chunk ∧
    ∀ a t, (system N cfg size).step s a t → s.memory.chunks <:+ t.memory.chunks := by
  obtain ⟨cs,hs⟩ := stored hsize hwrap h
  obtain ⟨free,hthreaded⟩ := PoolConservation.threaded hsize hwrap hs.pool
  refine ⟨fun c hc => hs.mem (live_cell (live_of_reach (reach_server h) hc)),hs.length,?_,
    hs.grown,?_⟩
  · have hlength := hs.length
    have hblocks := hthreaded.blocks.length_eq
    rw [PoolProvenance.length_blocks,Nat.mul_comm] at hblocks
    simp only [List.length_append,List.nil_append] at hblocks
    omega
  · rintro a _ ⟨-,rfl⟩
    exact chunks_next cfg size s a

/-- The only connection has been closed, and its task has ended. -/
theorem memory_grows_with_registrations_closed : ∃ s : State 1,
    (view s.server 0).isOpen = false ∧ (view s.server 0).outstanding = 0 ∧
      s.block 0 ∈ s.memory.live ∧ 1 ≤ chunk*s.memory.chunks.length := by
  obtain ⟨s,hs,hp⟩ := reach_of_script (N := 1) .standard 4216 65536
    (Reclamation.endOfFileScript 0)
    (fun s => (view s.server 0).history.any registers && registrations s.server = 1 &&
      (view s.server 0).isOpen = false && (view s.server 0).outstanding = 0) (by decide +kernel)
  simp only [Bool.and_eq_true,decide_eq_true_eq] at hp
  obtain ⟨⟨⟨hregistered,hone⟩,hopen⟩,hdone⟩ := hp
  obtain ⟨hblocks,-,hle,-,-⟩ :=
    memory_grows_with_registrations (by decide) (by unfold chunk; decide) s hs
  rw [hone] at hle
  exact ⟨s,hopen,hdone,hblocks 0 (registered_of_any hregistered),hle⟩

end WebServer.ContextMemory
