import WebServer.LifecycleWork

/-!
# The potential of a connection

Every move of a connection's life is paid for by a potential, if `r` reads can still
find something: one for each byte that is left, and one for the end of the file. There
is one weight for each place of the token. A round through epoll, the batch, the queue
and a task costs less than what is paid for one read. A task pays for the re-arming that
is still to come, which a successful `EPOLL_CTL_MOD` hands over to the registration.
-/
namespace WebServer.Potential
open TransitionSystem Interaction RequestParsing Contexts Handler Server Lifecycle
open ThreadPool (Outcome)

variable {cfg : Config} {size : ℕ}

/-! ## The length of a call -/

theorem bounded_leave (n : ℕ) : leave.Bounded (n+1) := fun _ => trivial

theorem bounded_conclude (shouldClose needReadd : Bool) :
    (conclude shouldClose needReadd).Bounded 5 := by
  cases shouldClose with
  | true =>
      intro wasClosed
      cases wasClosed with
      | true => exact bounded_leave 3
      | false => exact fun _ _ => bounded_leave 1
  | false =>
      cases needReadd with
      | false => exact bounded_leave 4
      | true =>
          intro closed
          cases closed with
          | true => exact bounded_leave 3
          | false =>
              intro ok
              cases ok with
              | true => exact bounded_leave 2
              | false => exact fun _ _ => bounded_leave 0

theorem bounded_receive (bytes : Bytes) : (receive size bytes).Bounded 10 := by
  intro _ _ complete
  cases complete with
  | true =>
      intro set
      cases set with
      | true =>
          intro outcome
          cases outcome with
          | returned => exact bounded_conclude true false
          | threw => trivial
      | false => exact (bounded_conclude true false).mono (by decide)
  | false =>
      intro n
      change (if size-1 ≤ n then conclude true false else conclude false true).Bounded 6
      split <;> exact (bounded_conclude _ _).mono (by decide)

theorem bounded_handleClientClient : (handleClientClient size).Bounded 12 := by
  intro closed
  cases closed with
  | true => exact bounded_leave 10
  | false =>
      intro n
      cases n with
      | error e =>
          cases e with
          | badf => exact fun _ => bounded_leave 8
          | _ => exact (bounded_conclude _ _).mono (by decide)
      | data bytes =>
          cases bytes with
          | nil => exact (bounded_conclude true false).mono (by decide)
          | cons b bs => exact bounded_receive (b::bs)

/-! ## What a task may still claim -/

/-- A call that has not read yet. -/
def Fresh (size : ℕ) (c : Code) : Prop :=
  c = handleClientClient size ∨ c = .op .read (afterRead size)

theorem may_of_fresh {c : Code} (h : Fresh size c) : c.May .epollMod := by
  have hmod : (conclude false true).May .epollMod := .inr ⟨false,.inl rfl⟩
  have hread : (Program.op .read (afterRead size) : Code).May .epollMod :=
    .inr ⟨.error .again,hmod⟩
  rcases h with rfl | rfl
  · exact .inr ⟨false,hread⟩
  · exact hread

theorem not_may_leave : ¬ leave.May .epollMod := by
  simp [leave,Program.May]

theorem not_may_conclude : ¬ (conclude true false).May .epollMod := by
  rintro (h | ⟨wasClosed,h⟩)
  · cases h
  · cases wasClosed <;> simp [leave,Program.May] at h

/-- What the task in charge pays for the rounds that its re-arming leads to: `r` reads
are left, and a call that has not read yet takes one of them. -/
noncomputable def claim (size : ℕ) (c : Code) (r : ℕ) : ℕ :=
  open Classical in
  if Fresh size c then 21*(r-1) else if c.May .epollMod then 21*r else 0

theorem claim_fresh {c : Code} (h : Fresh size c) (r : ℕ) : claim size c r = 21*(r-1) :=
  if_pos h

theorem claim_of_not_may {c : Code} (h : ¬ c.May .epollMod) (r : ℕ) : claim size c r = 0 := by
  rw [claim,if_neg fun hf => h (may_of_fresh hf),if_neg h]

theorem claim_of_may {c : Code} (hf : ¬ Fresh size c) (h : c.May .epollMod) (r : ℕ) :
    claim size c r = 21*r := by
  rw [claim,if_neg hf,if_pos h]

theorem claim_le (c : Code) (r : ℕ) : claim size c r ≤ 21*r := by
  unfold claim
  split_ifs <;> omega

theorem claim_mono {c : Code} {r r' : ℕ} (h : r' ≤ r) : claim size c r' ≤ claim size c r := by
  unfold claim
  split_ifs <;> omega

/-- How many reads are left after an operation, if `r` were left before it. -/
def Leaves (r r' : ℕ) : (o : Op) → o.Res → Prop
  | .read, .data (_::_) => r' < r
  | .read, .error .again => r' = 0
  | _, _ => r' ≤ r

theorem Leaves.le {r r' : ℕ} {o : Op} {x : o.Res} (h : Leaves r r' o x) : r' ≤ r := by
  cases o with
  | read =>
      cases x with
      | data bytes =>
          cases bytes with
          | nil => exact h
          | cons b bs => exact Nat.le_of_lt h
      | error e =>
          cases e with
          | again =>
              have hz : r' = 0 := h
              omega
          | badf => exact h
          | other => exact h
  | _ => exact h

/-- No operation but the re-arming itself raises the claim. -/
theorem claim_step {o : Op} {k : o.Res → Code} {x : o.Res} {r r' : ℕ} (h : Leaves r r' o x) :
    claim size (k x) r' ≤ claim size (.op o k) r := by
  by_cases hf : Fresh size (.op o k)
  · rw [claim_fresh hf]
    rcases hf with hc | hc
    · cases hc
      cases x with
      | true => exact (claim_of_not_may not_may_leave r').le.trans (Nat.zero_le _)
      | false =>
          have hle : r' ≤ r := h
          change claim size (.op .read (afterRead size)) r' ≤ 21*(r-1)
          rw [claim_fresh (.inr rfl)]
          omega
    · cases hc
      cases x with
      | data bytes =>
          cases bytes with
          | nil => exact (claim_of_not_may not_may_conclude r').le.trans (Nat.zero_le _)
          | cons b bs =>
              have hlt : r' < r := h
              refine (claim_le _ r').trans ?_
              omega
      | error e =>
          cases e with
          | again =>
              have hz : r' = 0 := h
              subst hz
              exact (claim_le _ 0).trans (Nat.zero_le _)
          | badf =>
              refine (claim_of_not_may ?_ r').le.trans (Nat.zero_le _)
              simp [afterRead,leave,Program.May]
          | other => exact (claim_of_not_may not_may_conclude r').le.trans (Nat.zero_le _)
  · by_cases hm : (k x).May .epollMod
    · rw [claim_of_may hf (Program.May.of_step hm)]
      exact (claim_le _ r').trans (Nat.mul_le_mul_left 21 h.le)
    · exact (claim_of_not_may hm r').le.trans (Nat.zero_le _)

/-! ## The potential of a connection -/

noncomputable def taskPotential (size r : ℕ) (t : Task) : ℕ :=
  2+t.code.depth+(if t.handed = none then claim size t.code r else 0)

noncomputable def tasks (size r : ℕ) (m : Multiset Task) : ℕ := (m.map (taskPotential size r)).sum

/-- An armed connection pays for all reads that are left. -/
def watching (r : ℕ) : Option Bool → ℕ
  | some true => 21*r
  | _ => 0

/-- The weight of the place where `AcceptLoop` stands with the connection. -/
def setup (r : ℕ) : Position → ℕ
  | .setNonblocking => 6+21*r
  | .onConnection => 5+21*r
  | .create => 4+21*r
  | .add => 3+21*r
  | .delete => 2
  | .close => 1
  | .submit => 19+21*(r-1)
  | .notify => 2
  | .fetch | .exited => 0

/-- A token under way has one of the reads that are left before it. -/
noncomputable def potential (size : ℕ) (v : Conn) (r : ℕ) : ℕ :=
  setup r v.pos+watching r v.watch+v.delivered*(20+21*(r-1))+v.queued*(16+21*(r-1))+
    v.held*(15+21*(r-1))+tasks size r v.running

@[simp] theorem tasks_cons (r : ℕ) (t : Task) (m : Multiset Task) :
    tasks size r (t ::ₘ m) = taskPotential size r t+tasks size r m := by
  simp [tasks]

theorem setup_mono {r r' : ℕ} (h : r' ≤ r) (pos : Position) : setup r' pos ≤ setup r pos := by
  cases pos <;> simp only [setup] <;> omega

theorem watching_mono {r r' : ℕ} (h : r' ≤ r) (w : Option Bool) :
    watching r' w ≤ watching r w := by
  unfold watching
  split <;> omega

theorem taskPotential_mono {r r' : ℕ} (h : r' ≤ r) (t : Task) :
    taskPotential size r' t ≤ taskPotential size r t := by
  have hc : claim size t.code r' ≤ claim size t.code r := claim_mono h
  unfold taskPotential
  split_ifs <;> omega

theorem tasks_mono {r r' : ℕ} (h : r' ≤ r) (m : Multiset Task) :
    tasks size r' m ≤ tasks size r m :=
  Multiset.sum_map_le_sum_map _ _ fun t _ => taskPotential_mono h t

theorem potential_mono {r r' : ℕ} (h : r' ≤ r) (v : Conn) :
    potential size v r' ≤ potential size v r := by
  unfold potential
  gcongr
  · exact setup_mono h v.pos
  · exact watching_mono h v.watch
  · exact tasks_mono h v.running

/-- One token moves from a place of weight `a` to a place of weight `b`. -/
theorem move_token {n a b : ℕ} (hn : 0 < n) (hab : b < a) : (n-1)*a+b < n*a := by
  obtain ⟨m,rfl⟩ := Nat.exists_eq_add_of_lt hn
  rw [Nat.zero_add,Nat.add_sub_cancel,Nat.add_mul,Nat.one_mul]
  omega

theorem taskPotential_start (hsize : cfg.bufferSize = size) (r : ℕ) (c : ConnId) :
    taskPotential size r (Task.start cfg c) ≤ 14+21*(r-1) := by
  have hdepth : (handleClientClient size).depth ≤ 12 :=
    Program.depth_le bounded_handleClientClient
  simp only [taskPotential,Task.start,hsize,if_true,claim_fresh (.inl rfl)]
  omega

/-- What a move gives to the workers: `notify_one` and the end of a job wake one. -/
def gain : Move → ℕ
  | .notify | .finish _ _ _ => 1
  | _ => 0

section Moves
variable {v : Conn} {r : ℕ}

theorem potential_next (hsize : cfg.bufferSize = size) {m : Move} (he : v.enabled cfg m)
    (haccept : ∀ fd, m ≠ .accept fd) (hwork : ∀ rest t o k x, m ≠ .work rest t o k x)
    (hdeliver : m = .deliver → 0 < r) :
    potential size (v.next cfg m) r+gain m < potential size v r := by
  cases m with
  | accept fd => exact (haccept fd rfl).elim
  | work rest t o k x => exact (hwork rest t o k x rfl).elim
  | setNonblocking =>
      have hpos : v.pos = .setNonblocking := he
      simp only [potential,Conn.next,hpos,setup,gain]
      omega
  | onConnection outcome =>
      have hpos : v.pos = .onConnection := he
      cases hc : cfg.onConnection <;>
        simp [potential,Conn.next,Conn.record,hc,hpos,setup,gain]
  | create =>
      have hpos : v.pos = .create := he
      simp only [potential,Conn.next,Conn.record,hpos,setup,gain]
      omega
  | add ok =>
      have hpos : v.pos = .add := he
      cases ok with
      | true =>
          simp only [potential,Conn.next,Conn.record,hpos,setup,watching,gain]
          omega
      | false =>
          simp only [potential,Conn.next,Conn.record,hpos,setup,gain]
          omega
  | delete =>
      have hpos : v.pos = .delete := he
      simp only [potential,Conn.next,Conn.record,hpos,setup,gain]
      omega
  | close =>
      have hpos : v.pos = .close := he
      simp only [potential,Conn.next,Conn.record,hpos,setup,watching,gain]
      omega
  | deliver =>
      have hwatch : v.watch = some true := he
      have hr := hdeliver rfl
      have hadd := Nat.add_one_mul v.delivered (20+21*(r-1))
      simp only [potential,Conn.next,hwatch,watching,gain]
      omega
  | addRef =>
      obtain ⟨hpos,hdelivered⟩ := he
      have hmove := move_token (a := 20+21*(r-1)) (b := 19+21*(r-1)) hdelivered (by omega)
      simp only [potential,Conn.next,Conn.record,hpos,setup,gain]
      omega
  | submit =>
      have hpos : v.pos = .submit := he
      have hadd := Nat.add_one_mul v.queued (16+21*(r-1))
      simp only [potential,Conn.next,hpos,setup,gain]
      omega
  | notify =>
      have hpos : v.pos = .notify := he
      simp only [potential,Conn.next,hpos,setup,gain]
      omega
  | look =>
      have hqueued : 0 < v.queued := he
      have hmove := move_token (a := 16+21*(r-1)) (b := 15+21*(r-1)) hqueued (by omega)
      have hadd := Nat.add_one_mul v.held (15+21*(r-1))
      simp only [potential,Conn.next,gain]
      omega
  | invoke c =>
      have hheld : 0 < v.held := he
      have hmove := move_token (a := 15+21*(r-1)) (b := 14+21*(r-1)) hheld (by omega)
      have hstart := taskPotential_start hsize r c
      simp only [potential,Conn.next,gain,tasks_cons]
      omega
  | finish rest t outcome =>
      obtain ⟨hrun,hcode⟩ := he
      have htask : 2 ≤ taskPotential size r t := by
        unfold taskPotential
        omega
      simp only [potential,Conn.next,Conn.record,hrun,gain,tasks_cons]
      omega

/-- What the registration and the task in charge pay for the rounds to come. -/
noncomputable def charge (size r : ℕ) (w : Option Bool) (t : Task) : ℕ :=
  watching r w+(if t.handed = none then claim size t.code r else 0)

/-- A successful re-arming hands the claim of the task over to the registration. -/
theorem charge_step {t : Task} {o : Op} {k : o.Res → Code} {x : o.Res} {r' : ℕ}
    (hcode : t.code = .op o k) (hleaves : Leaves r r' o x)
    (hcharge : o = .epollMod → t.handed = none) :
    charge size r' (v.perform o x).watch (t.advance (k x) o x) ≤ charge size r v.watch t := by
  have hle := hleaves.le
  have hwatch := watching_mono hle v.watch
  have hclaim : claim size (k x) r' ≤ claim size t.code r := by
    rw [hcode]
    exact claim_step hleaves
  have hkeep : watching r' v.watch+(if t.handed = none then claim size (k x) r' else 0) ≤
      charge size r v.watch t := by
    unfold charge
    split_ifs <;> omega
  cases o with
  | epollMod =>
      cases x with
      | false => exact hkeep
      | true =>
          have hfresh : ¬ Fresh size t.code := by
            rw [hcode]
            rintro (h | h) <;> cases h
          have hmay : t.code.May .epollMod := by
            rw [hcode]
            exact .inl rfl
          rw [charge,charge,if_pos (hcharge rfl),claim_of_may hfresh hmay]
          change 21*r'+0 ≤ _
          omega
  | epollDel =>
      refine le_trans ?_ hkeep
      exact Nat.add_le_add_right (Nat.zero_le _) _
  | close => exact Nat.zero_le _
  | onMessage => cases x <;> exact hkeep
  | _ => exact hkeep

/-- An operation costs the task one step of its call. -/
theorem potential_work {rest : Multiset Task} {t : Task} {o : Op} {k : o.Res → Code} {x : o.Res}
    {r' n : ℕ} (hrun : v.running = t ::ₘ rest) (hcode : t.code = .op o k)
    (hn : t.code.Bounded n) (hleaves : Leaves r r' o x)
    (hcharge : o = .epollMod → t.handed = none) :
    potential size (v.next cfg (.work rest t o k x)) r' < potential size v r := by
  have hle := hleaves.le
  have hdepth : (k x).depth < t.code.depth := by
    rw [hcode] at hn ⊢
    exact Program.depth_step hn x
  have hpaid : charge size r' (v.perform o x).watch (t.advance (k x) o x) ≤
      charge size r v.watch t := charge_step hcode hleaves hcharge
  have hsetup := setup_mono hle v.pos
  have hdelivered : v.delivered*(20+21*(r'-1)) ≤ v.delivered*(20+21*(r-1)) := by gcongr
  have hqueued : v.queued*(16+21*(r'-1)) ≤ v.queued*(16+21*(r-1)) := by gcongr
  have hheld : v.held*(15+21*(r'-1)) ≤ v.held*(15+21*(r-1)) := by gcongr
  have hrest : tasks size r' rest ≤ tasks size r rest := tasks_mono hle rest
  simp only [charge,advance_code] at hpaid
  simp only [potential,Conn.next,Conn.record,Lifecycle.perform_pos,perform_delivered,
    perform_queued,perform_held,hrun,tasks_cons,taskPotential,advance_code]
  omega

end Moves

/-- Every task is in a call that ends. -/
theorem bounded_tasks {K : Discipline Conn Move} {v : Conn} (h : (life cfg).Reach K v) :
    ∀ t ∈ v.running, ∃ n, t.code.Bounded n := by
  induction h with
  | start hi =>
      subst hi
      exact fun t ht => (Multiset.notMem_zero t ht).elim
  | @step v _ m _ _ hst ih =>
      obtain ⟨he,rfl⟩ := hst
      cases m with
      | invoke c =>
          intro t ht
          rcases Multiset.mem_cons.mp ht with rfl | ht
          · exact ⟨12,bounded_handleClientClient⟩
          · exact ih t ht
      | work rest t o k x =>
          obtain ⟨hrun,hcode,-,-⟩ := he
          rw [hrun] at ih
          intro u hu
          rcases Multiset.mem_cons.mp hu with rfl | hu
          · obtain ⟨n,hn⟩ := ih t (Multiset.mem_cons_self t rest)
            rw [hcode] at hn
            rw [advance_code]
            exact hn.step x
          · exact ih u (Multiset.mem_cons_of_mem hu)
      | finish rest t outcome =>
          obtain ⟨hrun,-⟩ := he
          exact fun u hu => ih u (hrun ▸ Multiset.mem_cons_of_mem hu)
      | onConnection outcome =>
          simp only [Conn.next]
          split <;> exact ih
      | add ok => cases ok <;> exact ih
      | _ => exact ih

end WebServer.Potential
