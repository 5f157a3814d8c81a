import Hydrogen.Lib.Simulation
import Hydrogen.Scheduler.Drain

/-!
# What the scheduler is for

`service` says what clients and devices may expect of a scheduler, in its own terms: a job is submitted once, starts once
on resources that no other running job has, is answered once, and that answer is the one its client gets. It knows no
queues, no threads and no rounds.

The scheduler does nothing else: in every run, under every interleaving of its threads, each step is a step of this
service or none (`system_refines_service`). Managed mode, the run queue, the elasticity manager and the finished queue
are not visible in it.
-/

namespace Hydrogen

open StdAlgorithm

/-! ## The service -/

/-- Where a job is, as far as clients and devices are concerned. -/
inductive Phase (ρ μ : Type) where
  | pending
  | running (rs : List ρ)
  | answered (m : μ)
  | replied (m : μ)

/-- The jobs of a service, by id. -/
abbrev Service (ρ μ : Type) := Nat → Option (Phase ρ μ)

namespace Service

variable {ρ μ : Type}

/-- What a service may do. -/
inductive Next (x : Service ρ μ) : Service ρ μ → Prop
  | submit (i : Nat) : x i = none → Next x (Function.update x i (some .pending))
  | start (i : Nat) (rs : List ρ) : x i = some .pending →
      (∀ k rs', x k = some (.running rs') → rs.Disjoint rs') → Next x (Function.update x i (some (.running rs)))
  | answer (i : Nat) (rs : List ρ) (m : μ) : x i = some (.running rs) →
      Next x (Function.update x i (some (.answered m)))
  | reply (i : Nat) (m : μ) : x i = some (.answered m) → Next x (Function.update x i (some (.replied m)))

/-- No two running jobs share a resource. -/
def Exclusive (x : Service ρ μ) : Prop :=
  ∀ i k rs rs', i ≠ k → x i = some (.running rs) → x k = some (.running rs') → rs.Disjoint rs'

/-- The jobs that run afterwards ran before, but for one that starts. -/
theorem exclusive_next {x y : Service ρ μ} (h : Exclusive x) (hn : Next x y) : Exclusive y := by
  -- a job that moves, but not to run, leaves fewer running
  have hmove : ∀ i p, (∀ rs, p ≠ Phase.running rs) → Exclusive (Function.update x i (some p)) := by
    intro i p hp k l rs rs' hne hk hl
    rw [Function.update_apply] at hk hl
    split at hk
    · exact absurd (Option.some.inj hk) (hp rs)
    · split at hl
      · exact absurd (Option.some.inj hl) (hp rs')
      · exact h k l rs rs' hne hk hl
  cases hn with
  | submit i _ => exact hmove i _ fun rs hp => by cases hp
  | answer i _ m _ => exact hmove i _ fun rs hp => by cases hp
  | reply i m _ => exact hmove i _ fun rs hp => by cases hp
  | start i rs₀ _ hfree =>
    intro k l rs rs' hne hk hl
    rw [Function.update_apply] at hk hl
    split at hk
    · rename_i hki
      split at hl
      · rename_i hli
        exact absurd (hki.trans hli.symm) hne
      · cases hk
        exact hfree l rs' hl
    · split at hl
      · cases hl
        exact (hfree k rs hk).symm
      · exact h k l rs rs' hne hk hl

end Service

/-- The service a scheduler is to be. -/
def service : Spec (Service Resource Msg) := ⟨fun _ => none, Service.Next⟩

/-! ## What the scheduler stands for -/

/-- The phase of a job in a state of the scheduler. -/
inductive State.Has (s : State) (i : Nat) : Option (Phase Resource Msg) → Prop
  | absent : i ∉ s.issued.map Job.jid → Has s i none
  | pending : i ∈ s.issued.map Job.jid → i ∉ s.started → Has s i (some .pending)
  | running {th : Thread} : th ∈ s.threads → th.phase = .calling → th.job.jid = i → Has s i (some (.running th.res))
  | answered {m : Msg} : (i, m) ∈ s.received → i ∉ s.copied.map Prod.fst → Has s i (some (.answered m))
  | replied {m : Msg} : (i, some m) ∈ s.copied → Has s i (some (.replied m))

/-- The service stands for the scheduler's state. -/
def Stands (s : State) (x : Service Resource Msg) : Prop := ∀ i, s.Has i (x i)

variable {cfg : Config} {s t : State} {i : Nat} {o : Option (Phase Resource Msg)}

/-- A phase is kept by steps that touch none of what it is read off. -/
theorem State.Has.frame (h : s.Has i o) (hissued : i ∈ t.issued.map Job.jid ↔ i ∈ s.issued.map Job.jid)
    (hstarted : i ∈ t.started ↔ i ∈ s.started)
    (hthreads : ∀ th ∈ s.threads, th.phase = .calling → th.job.jid = i → th ∈ t.threads)
    (hreceived : ∀ m, (i, m) ∈ s.received → (i, m) ∈ t.received)
    (hcopied : ∀ o, (i, o) ∈ t.copied ↔ (i, o) ∈ s.copied) : t.Has i o := by
  cases h with
  | absent hi => exact .absent fun hm => hi (hissued.mp hm)
  | pending hi hs => exact .pending (hissued.mpr hi) fun hm => hs (hstarted.mp hm)
  | running hth hph hid => exact .running (hthreads _ hth hph hid) hph hid
  | answered hrec hc =>
    refine .answered (hreceived _ hrec) fun hm => hc ?_
    obtain ⟨⟨k, o⟩, hko, rfl⟩ := List.mem_map.mp hm
    exact List.mem_map_of_mem ((hcopied o).mp hko)
  | replied hc => exact .replied ((hcopied _).mpr hc)

/-- Nothing moved. -/
theorem Stands.same {x : Service Resource Msg} (h : Stands s x) (hissued : t.issued = s.issued)
    (hstarted : t.started = s.started) (hthreads : ∀ th ∈ s.threads, th.phase = .calling → th ∈ t.threads)
    (hreceived : t.received = s.received) (hcopied : t.copied = s.copied) :
    ∃ y, (y = x ∨ service.next x y) ∧ Stands t y := by
  refine ⟨x, .inl rfl, fun i => (h i).frame ?_ ?_ (fun th hth hph _ => hthreads th hth hph) ?_ ?_⟩
  · rw [hissued]
  · rw [hstarted]
  · rw [hreceived]
    exact fun _ hm => hm
  · rw [hcopied]
    exact fun _ => .rfl

/-- One job moved, and the others stayed. -/
theorem Stands.update {x : Service Resource Msg} (h : Stands s x) (i : Nat) {p : Phase Resource Msg}
    (hnext : service.next x (Function.update x i (some p))) (hi : t.Has i (some p))
    (hothers : ∀ k, k ≠ i → ∀ o, s.Has k o → t.Has k o) : ∃ y, (y = x ∨ service.next x y) ∧ Stands t y := by
  refine ⟨_, .inr hnext, fun k => ?_⟩
  rw [Function.update_apply]
  split
  · rename_i hk
    rw [hk]
    exact hi
  · rename_i hk
    exact hothers k hk _ (h k)

/-! ## A job has one phase -/

namespace Life

theorem launched_subset (h : Life s) : s.launched ⊆ s.issued := by
  intro j hj
  refine h.placed.subset ?_
  simp only [State.places, State.runningJobs, State.launched, List.append_assoc, List.mem_append] at hj ⊢
  tauto

theorem started_issued (h : Life s) (hi : i ∈ s.started) : i ∈ s.issued.map Job.jid :=
  List.map_subset _ h.launched_subset (h.launched.mem_iff.mp hi)

theorem received_started (h : Life s) {m : Msg} (hm : (i, m) ∈ s.received) : i ∈ s.started := by
  refine h.launched.mem_iff.mpr ?_
  have hans := h.answered.mem_iff.mp (List.mem_map_of_mem hm)
  have hsub : s.answered.Sublist s.launched := ((threads_answered_sublist s.threads).append_right _).append_right _
  exact (hsub.map _).subset hans

theorem calling_started (h : Life s) {th : Thread} (hth : th ∈ s.threads) (hph : th.phase = .calling) :
    th.job.jid ∈ s.started := by
  refine h.launched.mem_iff.mpr (List.mem_map_of_mem ?_)
  simp only [State.launched, List.mem_append, List.mem_flatMap]
  refine .inl (.inl ⟨th, hth, ?_⟩)
  rw [Thread.running, hph]
  exact List.mem_singleton.mpr rfl

theorem copied_received (h : Life s) {o : Option Msg} (hc : (i, o) ∈ s.copied) :
    ∃ m, o = some m ∧ (i, m) ∈ s.received := h.copied _ hc

/-- A job that was not issued. -/
theorem has_absent (h : Life s) (hi : i ∉ s.issued.map Job.jid) (ho : s.Has i o) : o = none := by
  cases ho with
  | absent _ => rfl
  | pending hm _ => exact absurd hm hi
  | running hth hph hid => exact absurd (h.started_issued (hid ▸ h.calling_started hth hph)) hi
  | answered hm _ => exact absurd (h.started_issued (h.received_started hm)) hi
  | replied hc =>
    obtain ⟨m, -, hm⟩ := h.copied_received hc
    exact absurd (h.started_issued (h.received_started hm)) hi

/-- A job that was issued and not started. -/
theorem has_pending (h : Life s) (hi : i ∈ s.issued.map Job.jid) (hs : i ∉ s.started) (ho : s.Has i o) :
    o = some .pending := by
  cases ho with
  | absent hm => exact absurd hi hm
  | pending _ _ => rfl
  | running hth hph hid => exact absurd (hid ▸ h.calling_started hth hph) hs
  | answered hm _ => exact absurd (h.received_started hm) hs
  | replied hc =>
    obtain ⟨m, -, hm⟩ := h.copied_received hc
    exact absurd (h.received_started hm) hs

/-- A job whose thread waits for the reply. -/
theorem has_running (h : Life s) {k : Nat} {th : Thread} (hth : s.threads[k]? = some th) (hph : th.phase = .calling)
    (ho : s.Has th.job.jid o) : ∃ rs, o = some (.running rs) := by
  have hstarted := h.calling_started (List.mem_of_getElem? hth) hph
  have hopen := h.not_answered hth hph
  cases ho with
  | absent hm => exact absurd (h.started_issued hstarted) hm
  | pending _ hs => exact absurd hstarted hs
  | running _ _ _ => exact ⟨_, rfl⟩
  | answered hm _ => exact absurd (List.mem_map_of_mem hm) hopen
  | replied hc =>
    obtain ⟨m, -, hm⟩ := h.copied_received hc
    exact absurd (List.mem_map_of_mem hm) hopen

/-- A job whose reply was received, and its client's view of it. -/
theorem has_received (h : Life s) {m : Msg} (hm : (i, m) ∈ s.received) (ho : s.Has i o) :
    (o = some (.answered m) ∧ i ∉ s.copied.map Prod.fst) ∨ (o = some (.replied m) ∧ i ∈ s.copied.map Prod.fst) := by
  have hstored : ∀ m', (i, m') ∈ s.received → m' = m := fun m' hm' =>
    Option.some.inj ((h.stored _ hm').symm.trans (h.stored _ hm))
  cases ho with
  | absent hi => exact absurd (h.started_issued (h.received_started hm)) hi
  | pending _ hs => exact absurd (h.received_started hm) hs
  | running hth hph hid =>
    obtain ⟨k, hk⟩ := List.getElem?_of_mem hth
    exact absurd (hid ▸ List.mem_map_of_mem hm) (h.not_answered hk hph)
  | answered hm' hc =>
    rw [hstored _ hm']
    exact .inl ⟨rfl, hc⟩
  | replied hc =>
    obtain ⟨m', hsome, hm'⟩ := h.copied_received hc
    cases hsome
    rw [hstored _ hm']
    exact .inr ⟨rfl, List.mem_map_of_mem hc⟩

/-- A job that is completed and whose response was not copied. -/
theorem has_answered (h : Life s) (hi : i ∈ s.completed.map Job.jid) (hc : i ∉ s.copied.map Prod.fst)
    (ho : s.Has i o) : ∃ m, (i, m) ∈ s.received ∧ o = some (.answered m) := by
  have hans : i ∈ s.answered.map Job.jid := by
    rw [State.answered, List.map_append]
    exact List.mem_append_right _ hi
  obtain ⟨⟨k, m⟩, hm, rfl⟩ := List.mem_map.mp (h.answered.mem_iff.mpr hans)
  rcases h.has_received hm ho with ⟨rfl, -⟩ | ⟨-, hcopied⟩
  · exact ⟨m, hm, rfl⟩
  · exact absurd hcopied hc

/-- Two threads that wait for a reply to the same job are one. -/
theorem calling_unique (h : Life s) {th u : Thread} (hth : th ∈ s.threads) (hu : u ∈ s.threads)
    (hph : th.phase = .calling) (hpu : u.phase = .calling) (hid : u.job.jid = th.job.jid) : u = th := by
  obtain ⟨k, hlt, rfl⟩ := List.getElem_of_mem hth
  have hnd := h.launched_ids_nodup
  have hperm := List.getElem_cons_eraseIdx_perm hlt
  have hrun : s.threads[k].running = [s.threads[k].job] := by
    rw [Thread.running, hph]
  -- the thread and the others, whose jobs have other ids
  have hothers := ((hperm.symm.flatMap_right Thread.running).map Job.jid).nodup_iff.mp
    (hnd.sublist (((List.sublist_append_left _ _).trans (List.sublist_append_left _ _)).map _))
  rw [List.flatMap_cons, hrun, List.singleton_append, List.map_cons, List.nodup_cons] at hothers
  rcases List.mem_cons.mp (hperm.mem_iff.mpr hu) with rfl | hm
  · rfl
  · refine absurd (List.mem_map.mpr ⟨u.job, List.mem_flatMap.mpr ⟨u, hm, ?_⟩, hid⟩) hothers.1
    rw [Thread.running, hpu]
    exact List.mem_singleton.mpr rfl

/-- A job has one phase. -/
theorem has_unique (h : Life s) {o' : Option (Phase Resource Msg)} (ho : s.Has i o) (ho' : s.Has i o') : o' = o := by
  cases ho with
  | absent hi => exact h.has_absent hi ho'
  | pending hi hs => exact h.has_pending hi hs ho'
  | running hth hph hid =>
    obtain ⟨k, hk⟩ := List.getElem?_of_mem hth
    subst hid
    obtain ⟨rs, rfl⟩ := h.has_running hk hph ho'
    cases ho' with
    | running hu hpu hid => rw [h.calling_unique hth hu hph hpu hid]
  | answered hm hc =>
    rcases h.has_received hm ho' with ⟨rfl, -⟩ | ⟨-, hcopied⟩
    · rfl
    · exact absurd hcopied hc
  | replied hc =>
    obtain ⟨m, hsome, hm⟩ := h.copied_received hc
    cases hsome
    rcases h.has_received hm ho' with ⟨-, hopen⟩ | ⟨rfl, -⟩
    · exact absurd (List.mem_map_of_mem hc) hopen
    · rfl

end Life

/-! ## The steps that are visible -/

variable {x : Service Resource Msg}

theorem enqueue_simulated {k : Nat} (hl : Life s) (h : Stands s x) (hs : enqueue k s = some t) :
    ∃ y, (y = x ∨ service.next x y) ∧ Stands t y := by
  obtain ⟨j, hj, -, rfl⟩ := enqueue_cases hs
  have hfresh : j.jid ∉ s.issued.map Job.jid := by
    have hnd := hl.fresh
    rw [List.map_append] at hnd
    exact fun hm => (List.nodup_append.mp hnd).2.2 _ (List.mem_map_of_mem (List.mem_of_getElem? hj)) _ hm rfl
  have hnone := hl.has_absent hfresh (h j.jid)
  refine h.update j.jid (.submit j.jid hnone) ?_ fun i hi o ho => ?_
  · exact .pending (by simp) fun hm => hfresh (hl.started_issued hm)
  · refine ho.frame ?_ .rfl (fun _ hth _ _ => hth) (fun _ hm => hm) fun _ => .rfl
    simp [hi]

/-- What the dispatcher has in its hands nobody else has. -/
theorem Distinct.dispatched {c : List Resource} (h : Distinct s c) {p : JobResPair} (hd : s.dispatcher = some p)
    {th : Thread} (hth : th ∈ s.threads) (hph : th.phase = .calling) : p.2.Disjoint th.res := by
  have hsub : (p.2 ++ s.threads.flatMap Thread.held).Sublist (c ++ s.held) := by
    simp only [State.held, hd, Option.toList, List.flatMap_cons, List.flatMap_nil, List.append_nil, List.append_assoc]
    exact (List.sublist_append_right _ _).trans ((List.sublist_append_right _ _).trans (List.sublist_append_right _ _))
  have hfresh := h.all.subperm hsub.subperm
  intro r hr hr'
  refine hfresh.disjoint r.rid (List.mem_map_of_mem hr) (List.mem_map_of_mem (List.mem_flatMap.mpr ⟨th, hth, ?_⟩))
  rw [Thread.held, hph]
  exact hr'

theorem dispatcherLoop_simulated {c : List Resource} (hl : Life s) (hd : Distinct s c) (h : Stands s x)
    (hs : dispatcherLoop s = some t) : ∃ y, (y = x ∨ service.next x y) ∧ Stands t y := by
  cases dispatcherLoop_cases hs with
  | pop _ _ => exact h.same rfl rfl (fun _ hth _ => hth) rfl rfl
  | skip _ _ => exact h.same rfl rfl (fun _ hth _ => hth) rfl rfl
  | @start p hp =>
    have hissued : p.1.jid ∈ s.issued.map Job.jid := by
      refine List.mem_map_of_mem (hl.placed.subset ?_)
      simp [State.places, State.runningJobs, hp]
    have hopen := hl.not_skipped hp
    have hpending := hl.has_pending hissued hopen (h p.1.jid)
    refine h.update p.1.jid (.start p.1.jid p.2 hpending fun k rs hk => ?_) ?_ fun i hi o ho => ?_
    · have hrun := h k
      rw [hk] at hrun
      cases hrun with
      | running hth hph _ => exact hd.dispatched hp hth hph
    · exact @State.Has.running _ _ ⟨p.1, p.2, .calling⟩ List.mem_cons_self rfl rfl
    · refine ho.frame .rfl ?_ (fun _ hth _ _ => List.mem_cons_of_mem _ hth) (fun _ hm => hm) fun _ => .rfl
      simp [hi]

/-- Another thread stays in the list when one is taken out. -/
theorem mem_eraseIdx_of_ne {ts : List Thread} {k : Nat} {th u : Thread} (hth : ts[k]? = some th) (hu : u ∈ ts)
    (hne : u ≠ th) : u ∈ ts.eraseIdx k := by
  obtain ⟨hlt, rfl⟩ := List.getElem?_eq_some_iff.mp hth
  have hperm := List.getElem_cons_eraseIdx_perm hlt
  rcases List.mem_cons.mp (hperm.mem_iff.mpr hu) with rfl | hm
  · exact absurd rfl hne
  · exact hm

theorem runJob_simulated {k : Nat} {rsp : Msg} (hl : Life s) (h : Stands s x) (hs : runJob k rsp s = some t) :
    ∃ y, (y = x ∨ service.next x y) ∧ Stands t y := by
  obtain ⟨th, hth, hstep⟩ := runJob_cases hs
  -- the other threads that wait for a reply stay
  have hstay : ∀ ph, th.phase = ph → ph ≠ .calling → ∀ u ∈ s.threads, u.phase = .calling →
      u ∈ s.threads.eraseIdx k := fun ph hph hne u hu hcall =>
    mem_eraseIdx_of_ne hth hu fun he => hne (by rw [← hph, ← he, hcall])
  cases hstep with
  | answer rsp hph _ =>
    have hopen := hl.not_answered hth hph
    obtain ⟨rs, hrun⟩ := hl.has_running hth hph (h th.job.jid)
    refine h.update th.job.jid (.answer th.job.jid rs rsp hrun) ?_ fun i hi o ho => ?_
    · refine .answered List.mem_cons_self fun hm => hopen ?_
      obtain ⟨⟨i, o⟩, hc, hid⟩ := List.mem_map.mp hm
      obtain ⟨m, -, hrec⟩ := hl.copied_received hc
      exact hid ▸ List.mem_map_of_mem hrec
    · refine ho.frame .rfl .rfl (fun u hu _ hid => ?_) (fun _ hm => List.mem_cons_of_mem _ hm) fun _ => .rfl
      exact List.mem_cons_of_mem _ (mem_eraseIdx_of_ne hth hu fun he => hi (by rw [← hid, he]))
  | giveBack hph =>
    exact h.same rfl rfl (fun u hu hc => List.mem_cons_of_mem _ (hstay _ hph (by simp) u hu hc)) rfl rfl
  | finish hph =>
    exact h.same rfl rfl (fun u hu hc => List.mem_cons_of_mem _ (hstay _ hph (by simp) u hu hc)) rfl rfl
  | leave hph => exact h.same rfl rfl (fun u hu hc => hstay _ hph (by simp) u hu hc) rfl rfl

theorem copyResponse_simulated {k : Nat} (hl : Life s) (hc : Clients s) (h : Stands s x)
    (hs : copyResponse k s = some t) : ∃ y, (y = x ∨ service.next x y) ∧ Stands t y := by
  obtain ⟨j, hj, hfin, rfl⟩ := copyResponse_cases hs
  have hopen : j.jid ∉ s.copied.map Prod.fst := by
    have hnd := hc.waits.nodup_iff.mpr hl.issued_ids_nodup
    exact fun hm => (List.nodup_append.mp hnd).2.2 _ (List.mem_map_of_mem (List.mem_of_getElem? hj)) _ hm rfl
  obtain ⟨m, hrec, hans⟩ := hl.has_answered (hl.finished _ hfin) hopen (h j.jid)
  refine h.update j.jid (.reply j.jid m hans) ?_ fun i hi o ho => ?_
  · refine .replied ?_
    rw [← hl.stored _ hrec]
    exact List.mem_cons_self
  · refine ho.frame .rfl .rfl (fun _ hth _ _ => hth) (fun _ hm => hm) fun o => ?_
    simp [hi]

/-! ## The simulation -/

/-- Each step of the scheduler is one the service allows, or is not visible in it. -/
theorem system_simulates (cfg : Config) : (system cfg).Simulates (fun _ _ => True) service Stands where
  init := fun i => .absent fun hm => by cases hm
  step := by
    intro s a t x hr h _ hs
    have hl : Life s := reachable_life hr
    obtain ⟨c, hd⟩ : ∃ c, Distinct s c := reachable_distinct hr
    cases a with
    | drawId request =>
      obtain rfl := Option.some.inj hs
      exact h.same rfl rfl (fun _ hth _ => hth) rfl rfl
    | enqueue k => exact enqueue_simulated hl h hs
    | sched =>
      cases schedLoop_cases hs with
      | adjust _ _ hu =>
        rw [updateResourcePool_frame hu]
        exact h.same rfl rfl (fun _ hth _ => hth) rfl rfl
      | _ => exact h.same rfl rfl (fun _ hth _ => hth) rfl rfl
    | dispatch => exact dispatcherLoop_simulated hl hd h hs
    | run k rsp => exact runJob_simulated hl h hs
    | finish =>
      cases finishedLoop_cases hs with
      | _ => exact h.same rfl rfl (fun _ hth _ => hth) rfl rfl
    | copy k => exact copyResponse_simulated hl (reachable_clients hr) h hs

/-- **The scheduler is a job service**: under every interleaving of its threads each step is one the service allows or is
not visible in it, and every state stands for one state of the service, where no two running jobs share a resource. -/
theorem system_refines_service (cfg : Config) :
    (system cfg).Simulates (fun _ _ => True) service Stands ∧
    ∀ s, (system cfg).Reachable s → ∃ x, service.Reachable x ∧ x.Exclusive ∧ ∀ y, Stands s y ↔ y = x := by
  refine ⟨system_simulates cfg, fun s hs => ?_⟩
  obtain ⟨x, hx, hstands⟩ := (system_simulates cfg).reachable hs
  have hexcl : x.Exclusive := hx.invariant (P := Service.Exclusive)
    (fun i k rs rs' _ hi _ => by cases hi) fun _ _ he hn => Service.exclusive_next he hn
  refine ⟨x, hx, hexcl, fun y => ⟨fun hy => funext fun i => ?_, fun hy => hy ▸ hstands⟩⟩
  exact (reachable_life hs).has_unique (hstands i) (hy i)

end Hydrogen
