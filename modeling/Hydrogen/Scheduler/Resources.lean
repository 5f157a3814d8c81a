import Hydrogen.Scheduler.Lifecycle

/-!
# Where the resources are

Between two operations of `ManagedMode` part of the pool is in the hands of the algorithm that is being tried. `PoolIs`
says which resources the pool stands for: those it will hold when managed mode is through, whatever is returned to it in
the meantime.

Two invariants follow the resources through a run. `Distinct` holds in all runs: no resource is at two places and no id
is given out twice. `Conserved` says that every resource provisioned is accounted for, and that what `schedLoop` is
about to claim is in the pool. The elasticity step breaks it: it runs after an allocation is chosen and before it is
claimed, and takes the resource at the back of the pool whether it was chosen or not. In runs where that resource never
was (`Spares`), resources are conserved (`resources_conserved`).
-/

namespace Hydrogen

open StdAlgorithm

/-! ## Claiming -/

/-- What is claimed is gone from the pool, found or not. -/
theorem claimResources_rids : ∀ (rs pool : List Resource), (rids pool).Nodup →
    (claimResources rs pool).1.Sublist pool ∧ ∀ i ∈ rids rs, i ∉ rids (claimResources rs pool).1
  | [], _, _ => ⟨.refl _, fun i hi => by cases hi⟩
  | r :: rs, pool, hnd => by
    unfold claimResources
    split
    · rename_i hany
      obtain ⟨x, hx, hxr⟩ := List.any_eq_true.mp hany
      have hid : x.rid = r.rid := by simpa using hxr
      have hperm := perm_cons_eraseP_key Resource.rid hx hnd
      rw [hid] at hperm
      have hgone := List.nodup_cons.mp ((hperm.map Resource.rid).nodup_iff.mp hnd)
      obtain ⟨hsub, hout⟩ := claimResources_rids rs _ hgone.2
      refine ⟨hsub.trans List.eraseP_sublist, fun i hi hm => ?_⟩
      rcases List.mem_cons.mp hi with rfl | hi
      · refine hgone.1 ?_
        rw [hid]
        exact (hsub.map _).subset hm
      · exact hout i hi hm
    · rename_i hany
      obtain ⟨hsub, hout⟩ := claimResources_rids rs pool hnd
      refine ⟨hsub, fun i hi hm => ?_⟩
      rcases List.mem_cons.mp hi with rfl | hi
      · obtain ⟨x, hx, hxr⟩ := List.mem_map.mp ((hsub.map _).subset hm)
        exact hany (List.any_eq_true.mpr ⟨x, hx, by simpa using hxr⟩)
      · exact hout i hi hm

/-- Resources of the pool are found, and claiming them takes just them. -/
theorem claimResources_found : ∀ (rs pool : List Resource), (rids pool).Nodup → rs.Subperm pool →
    (claimResources rs pool).2 = false ∧ pool.Perm (rs ++ (claimResources rs pool).1)
  | [], _, _, _ => ⟨rfl, .refl _⟩
  | r :: rs, pool, hnd, hsub => by
    have hr : r ∈ pool := hsub.subset List.mem_cons_self
    have hperm := perm_cons_eraseP_key Resource.rid hr hnd
    have hgone := List.nodup_cons.mp ((hperm.map Resource.rid).nodup_iff.mp hnd)
    obtain ⟨hfound, hrest⟩ :=
      claimResources_found rs _ hgone.2 ((List.subperm_cons r).mp (hsub.trans hperm.subperm))
    have hany : (pool.any fun x => x.rid == r.rid) = true := List.any_eq_true.mpr ⟨r, hr, by simp⟩
    rw [claimResources, if_pos hany]
    exact ⟨hfound, hperm.trans (hrest.cons r)⟩

/-! ## The invariants -/

/-- Resources with distinct ids that were given out before `n`. -/
def Fresh (n : Nat) (rs : List Resource) : Prop := (rids rs).Nodup ∧ ∀ i ∈ rids rs, 1 ≤ i ∧ i < n

theorem Fresh.subperm {n : Nat} {rs rs' : List Resource} (h : Fresh n rs) (hs : rs'.Subperm rs) : Fresh n rs' := by
  refine ⟨nodup_map_of_subperm Resource.rid hs h.1, fun i hi => ?_⟩
  obtain ⟨r, hr, rfl⟩ := List.mem_map.mp hi
  exact h.2 _ (List.mem_map_of_mem (hs.subset hr))

theorem Fresh.mono {n n' : Nat} {rs : List Resource} (h : Fresh n rs) (hn : n ≤ n') : Fresh n' rs :=
  ⟨h.1, fun i hi => ⟨(h.2 i hi).1, lt_of_lt_of_le (h.2 i hi).2 hn⟩⟩

/-- The next id is given out. -/
theorem Fresh.next {n : Nat} {rs : List Resource} {r : Resource} (h : Fresh n rs) (hn : 1 ≤ n) (hr : r.rid = n) :
    Fresh (n + 1) (r :: rs) := by
  refine ⟨List.nodup_cons.mpr ⟨fun hm => ?_, h.1⟩, fun i hi => ?_⟩
  · have := (h.2 _ hm).2
    omega
  · rcases List.mem_cons.mp hi with rfl | hi
    · omega
    · have := h.2 i hi
      omega

/-- What is given out has no id of the rest. -/
theorem Fresh.disjoint {n : Nat} {rs rs' : List Resource} (h : Fresh n (rs ++ rs')) : ∀ i ∈ rids rs, i ∉ rids rs' := by
  intro i hi hi'
  have hnd := h.1
  rw [rids_append] at hnd
  exact (List.nodup_append.mp hnd).2.2 i hi i hi' rfl

theorem Fresh.append {n : Nat} {rs rs' : List Resource} (h : Fresh n rs) (h' : Fresh n rs')
    (hdisj : ∀ i ∈ rids rs, i ∉ rids rs') : Fresh n (rs ++ rs') := by
  refine ⟨?_, fun i hi => ?_⟩
  · rw [rids_append]
    refine List.nodup_append.mpr ⟨h.1, h'.1, fun i hi k hk he => ?_⟩
    exact hdisj i hi (he ▸ hk)
  · rw [rids_append, List.mem_append] at hi
    rcases hi with hi | hi
    · exact h.2 i hi
    · exact h'.2 i hi

/-- Resources of the pool without the id of its last one are in the rest of the pool. -/
theorem subperm_of_notMem_rids {rs pool : List Resource} {r : Resource} (h : rs.Subperm (pool ++ [r]))
    (hout : r.rid ∉ rids rs) : rs.Subperm pool := by
  refine List.subperm_ext_iff.mpr fun x hx => ?_
  have hne : r ≠ x := fun he => hout (List.mem_map.mpr ⟨x, hx, by rw [he]⟩)
  have hcount := List.subperm_ext_iff.mp h x hx
  rw [List.count_append, List.count_singleton, if_neg (by simpa using hne)] at hcount
  exact hcount

/-- The resources `c` the pool stands for. -/
def PoolIs (pc : SchedPc) (pool c : List Resource) : Prop :=
  match pc with
  | .managing p => p.Sat (fun x a q => q.Perm (c ++ x) ∧ a.resources.Subperm (c ++ x)) pool
  | _ => pool.Perm c

/-- A resource returned to the pool. -/
theorem PoolIs.push {pc : SchedPc} {pool c : List Resource} (h : PoolIs pc pool c) (x : List Resource) :
    PoolIs pc (pool ++ x) (c ++ x) := by
  cases pc with
  | managing p =>
    have hp : p.Sat (fun x a q => q.Perm (c ++ x) ∧ a.resources.Subperm (c ++ x)) pool := h
    exact (hp.env x).mono fun y a q hq => by simpa only [List.append_assoc] using hq
  | _ => exact List.Perm.append_right x h

theorem PoolIs.perm {pc : SchedPc} {pool c : List Resource} (h : PoolIs pc pool c) (hp : pc.locksReadyQ = false) :
    pool.Perm c := by
  cases pc with
  | managing p => cases hp
  | _ => exact h

/-- No resource is at two places and no id was given out twice. -/
structure Distinct (s : State) (c : List Resource) : Prop where
  pos : 1 ≤ s.resourceId
  pool : PoolIs s.pc s.resPool c
  all : Fresh s.resourceId (c ++ s.held)
  pending : Fresh s.resourceId (s.pc.unclaimed ++ s.held)
  threads : ∀ t ∈ s.threads, Fresh s.resourceId t.res

/-- Every resource provisioned is accounted for, and what is to be claimed is in the pool. -/
structure Conserved (s : State) (c : List Resource) : Prop where
  count : (c ++ s.held).length = s.provisionedResources
  chosen : s.pc.unclaimed.Subperm c
  found : s.erasedEnd = false

/-- The elasticity step after choosing `a` gives no resource of `a` back: it gives none back, or the last of the pool
was not chosen. -/
def Allocations.Spared (fp : Arith) (a : Allocations) (s : State) : Prop :=
  a.noJobs > 0 → (a.getJLOMetric fp).lt (.fin 0) = false → beta.lt (a.getJLOMetric fp) = true →
    s.provisionedResources > 0 → ∀ r ∈ s.resPool.getLast?, r.rid ∉ rids a.resources

instance (fp : Arith) (a : Allocations) (s : State) : Decidable (a.Spared fp s) :=
  inferInstanceAs (Decidable (_ → _ → _ → _ → ∀ r ∈ s.resPool.getLast?, r.rid ∉ rids a.resources))

/-- If the elasticity step is next, it spares what was chosen. -/
def Spares (fp : Arith) (s : State) : Prop :=
  match s.pc with
  | .chosen a => a.Spared fp s
  | _ => True

instance (fp : Arith) (s : State) : Decidable (Spares fp s) :=
  match h : s.pc with
  | .chosen a => decidable_of_iff (a.Spared fp s) (by rw [Spares, h])
  | .idle | .managing _ | .servicing _ | .claiming _ _ | .adding _ _ => .isTrue (by rw [Spares, h]; trivial)

/-- A step keeps both invariants, the second where it spares the allocation. -/
def Keeping (fp : Arith) (s : State) (c : List Resource) (t : State) : Prop :=
  ∃ c', Distinct t c' ∧ (Spares fp s → Conserved s c → Conserved t c')

variable {fp : Arith} {s t : State} {c : List Resource}

/-- A step that moves resources only from one holder to another, and chooses, if at all, from the pool. -/
theorem Distinct.keeping (h : Distinct s c) (hpool : PoolIs t.pc t.resPool c) (hheld : t.held.Perm s.held)
    (hun : t.pc.unclaimed.Subperm s.pc.unclaimed ∨ t.pc.unclaimed.Subperm c)
    (hth : ∀ u ∈ t.threads, Fresh s.resourceId u.res) (hid : t.resourceId = s.resourceId)
    (hprov : t.provisionedResources = s.provisionedResources) (hend : t.erasedEnd = s.erasedEnd) : Keeping fp s c t := by
  refine ⟨c, ⟨by rw [hid]; exact h.pos, hpool, ?_, ?_, by rw [hid]; exact hth⟩,
    fun _ hc => ⟨?_, ?_, by rw [hend]; exact hc.found⟩⟩
  · rw [hid]
    exact h.all.subperm (hheld.append_left c).subperm
  · rw [hid]
    rcases hun with hun | hun
    · exact h.pending.subperm ((hun.append hheld.subperm))
    · exact h.all.subperm (hun.append hheld.subperm)
  · rw [hprov, ← hc.count]
    exact (hheld.append_left c).length_eq
  · rcases hun with hun | hun
    · exact hun.trans hc.chosen
    · exact hun

/-- A step of `schedLoop` that claims nothing. -/
theorem Distinct.repc (h : Distinct s c) {pc : SchedPc} {readyQ : List Job} {resPool : List Resource}
    (hclaimed : pc.claimed = s.pc.claimed) (hpool : PoolIs pc resPool c)
    (hun : pc.unclaimed.Subperm s.pc.unclaimed ∨ pc.unclaimed.Subperm c) :
    Keeping fp s c { s with pc, readyQ, resPool } := by
  refine h.keeping hpool ?_ hun h.threads rfl rfl rfl
  unfold State.held
  rw [hclaimed]

/-- A step that does not touch resources. -/
theorem Distinct.same (h : Distinct s c) (hpc : t.pc = s.pc) (hpool : t.resPool = s.resPool) (hheld : t.held = s.held)
    (hth : t.threads = s.threads) (hid : t.resourceId = s.resourceId)
    (hprov : t.provisionedResources = s.provisionedResources) (hend : t.erasedEnd = s.erasedEnd) : Keeping fp s c t :=
  h.keeping (by rw [hpc, hpool]; exact h.pool) (by rw [hheld]) (.inl (by rw [hpc])) (by rw [hth]; exact h.threads)
    hid hprov hend

theorem distinct_init (cfg : Config) : Distinct (State.init cfg) (State.init cfg).resPool where
  pos := Nat.le_succ 1
  pool := .refl _
  all := ⟨List.nodup_singleton 1, fun i hi => by
    obtain rfl : i = 1 := List.mem_singleton.mp hi
    exact ⟨le_refl 1, Nat.lt_succ_self 1⟩⟩
  pending := ⟨List.nodup_nil, fun i hi => by cases hi⟩
  threads := fun t ht => by cases ht

theorem conserved_init (cfg : Config) : Conserved (State.init cfg) (State.init cfg).resPool :=
  ⟨rfl, List.nil_subperm, rfl⟩

/-! ## The elasticity step -/

theorem provisionResource_keeping {cfg : Config} {a : Allocations} (h : Distinct s c) (hpc : s.pc = .chosen a) :
    Keeping fp s c { provisionResource cfg s with pc := .servicing a.jobs } := by
  have hpool : s.resPool.Perm c := h.pool.perm (by rw [hpc]; rfl)
  have hpend := h.pending
  rw [hpc] at hpend
  have hheld : State.held { provisionResource cfg s with pc := .servicing a.jobs } = s.held := by
    simp only [State.held, hpc]
    rfl
  refine ⟨_, ⟨Nat.le_succ_of_le h.pos, hpool.append_right _, ?_, ?_, fun u hu => ?_⟩, fun _ hc => ?_⟩
  · rw [hheld]
    have hnext := h.all.next (r := ⟨s.resourceId, cfg.dispatcherPortNumber, cfg.dispatcherHostname, "DFE"⟩) h.pos rfl
    refine hnext.subperm (List.Perm.subperm ?_)
    rw [List.append_assoc]
    exact List.perm_middle
  · rw [hheld]
    exact hpend.mono (Nat.le_succ _)
  · exact (h.threads u hu).mono (Nat.le_succ _)
  · refine ⟨?_, ?_, hc.found⟩
    · rw [hheld]
      have := hc.count
      simp only [List.length_append, List.length_cons, List.length_nil] at this ⊢
      show _ = s.provisionedResources + 1
      omega
    · have := hc.chosen
      rw [hpc] at this
      exact this.trans (List.sublist_append_left _ _).subperm

theorem deprovisionResource_keeping {a : Allocations} (h : Distinct s c) (hpc : s.pc = .chosen a)
    (hjobs : a.noJobs > 0) (hmiss : (a.getJLOMetric fp).lt (.fin 0) = false)
    (hslack : beta.lt (a.getJLOMetric fp) = true) (hs : deprovisionResource s = some t) :
    Keeping fp s c { t with pc := .servicing a.jobs } := by
  have hpool : s.resPool.Perm c := h.pool.perm (by rw [hpc]; rfl)
  unfold deprovisionResource at hs
  split at hs
  · rename_i hpos
    split at hs
    · cases hs
    · rename_i r hlast
      obtain rfl := Option.some.inj hs
      have hsplit : s.resPool = s.resPool.dropLast ++ [r] := (List.dropLast_append_getLast? r hlast).symm
      rw [hsplit] at hpool
      have hsub : s.resPool.dropLast.Subperm c := (List.sublist_append_left _ _).subperm.trans hpool.subperm
      have hheld : State.held { s with
          provisionedResources := s.provisionedResources - 1
          resPool := s.resPool.dropLast
          pc := .servicing a.jobs } = s.held := by
        simp only [State.held, hpc]
        rfl
      have hpend := h.pending
      rw [hpc] at hpend
      refine ⟨_, ⟨h.pos, .refl _, ?_, ?_, h.threads⟩, fun hspare hc => ⟨?_, ?_, hc.found⟩⟩
      · rw [hheld]
        exact h.all.subperm (hsub.append (.refl _))
      · rw [hheld]
        exact hpend
      · rw [hheld]
        have h1 := hc.count
        have h2 := hpool.length_eq
        simp only [List.length_append, List.length_cons, List.length_nil] at h1 h2 ⊢
        omega
      · -- the resource taken was not chosen, so what was chosen is still there
        have hout : r.rid ∉ rids a.resources := by
          have := hspare
          rw [Spares, hpc] at this
          exact this hjobs hmiss hslack hpos r hlast
        have hchosen := hc.chosen
        rw [hpc] at hchosen
        exact subperm_of_notMem_rids (hchosen.trans hpool.symm.subperm) hout
  · obtain rfl := Option.some.inj hs
    exact h.repc (by rw [hpc]; rfl) hpool (.inl (by rw [hpc]; exact .refl _))

theorem updateResourcePool_keeping {cfg : Config} {a : Allocations} (h : Distinct s c) (hpc : s.pc = .chosen a)
    (hjobs : a.noJobs > 0) (hs : updateResourcePool cfg a s = some t) :
    Keeping cfg.fp s c { t with pc := .servicing a.jobs } := by
  unfold updateResourcePool at hs
  split at hs
  · obtain rfl := Option.some.inj hs
    exact provisionResource_keeping h hpc
  · rename_i hmiss
    split at hs
    · rename_i hslack
      exact deprovisionResource_keeping h hpc hjobs (eq_false_of_ne_true hmiss) hslack hs
    · obtain rfl := Option.some.inj hs
      exact h.repc (by rw [hpc]; rfl) (h.pool.perm (by rw [hpc]; rfl)) (.inl (by rw [hpc]; exact .refl _))

/-! ## The scheduler thread -/

theorem claim_keeping {p : JobResPair} {todo : List JobResPair} (h : Distinct s c) (hpc : s.pc = .claiming p todo) :
    Keeping fp s c { s with
      resPool := (claimResources p.2 s.resPool).1
      erasedEnd := s.erasedEnd || (claimResources p.2 s.resPool).2
      pc := .adding p todo } := by
  have hpool : s.resPool.Perm c := h.pool.perm (by rw [hpc]; rfl)
  have hall := h.all.subperm (hpool.append_right s.held).subperm
  have hids : (rids s.resPool).Nodup := (hall.subperm (List.sublist_append_left _ _).subperm).1
  have hpend := h.pending
  rw [hpc] at hpend
  obtain ⟨hsub, hout⟩ := claimResources_rids p.2 s.resPool hids
  have hheld : State.held { s with
      resPool := (claimResources p.2 s.resPool).1
      erasedEnd := s.erasedEnd || (claimResources p.2 s.resPool).2
      pc := .adding p todo } = p.2 ++ s.held := by
    simp only [State.held, hpc, SchedPc.claimed, List.nil_append, List.append_assoc]
  refine ⟨_, ⟨h.pos, .refl _, ?_, ?_, h.threads⟩, fun _ hc => ?_⟩
  · rw [hheld]
    have hpart := hall.subperm (hsub.append_right s.held).subperm
    have hclaim : Fresh s.resourceId (p.2 ++ s.held) := hpend.subperm (by
      show (p.2 ++ s.held).Subperm (p.2 ++ todo.flatMap Prod.snd ++ s.held)
      exact ((List.sublist_append_left _ _).append_right _).subperm)
    refine (hpart.subperm (List.sublist_append_left _ _).subperm).append hclaim fun i hi hk => ?_
    rw [rids_append, List.mem_append] at hk
    rcases hk with hk | hk
    · exact hout i hk hi
    · exact hpart.disjoint i hi hk
  · rw [hheld]
    refine hpend.subperm (List.Perm.subperm ?_)
    show (todo.flatMap Prod.snd ++ (p.2 ++ s.held)).Perm (p.2 ++ todo.flatMap Prod.snd ++ s.held)
    rw [← List.append_assoc]
    exact List.perm_append_comm.append_right _
  · have hchosen := hc.chosen
    rw [hpc] at hchosen
    have hin : (p.2 ++ todo.flatMap Prod.snd).Subperm s.resPool := hchosen.trans hpool.symm.subperm
    obtain ⟨hfound, hperm⟩ := claimResources_found p.2 s.resPool hids ((List.sublist_append_left _ _).subperm.trans hin)
    refine ⟨?_, ?_, ?_⟩
    · rw [hheld]
      have h1 := hc.count
      have h2 := hperm.length_eq
      have h3 := hpool.length_eq
      simp only [List.length_append] at h1 h2 h3 ⊢
      omega
    · exact (List.subperm_append_left p.2).mp (hin.trans hperm.subperm)
    · simp only [hc.found, hfound, Bool.or_self]

theorem schedLoop_keeping {cfg : Config} (hl : Life s) (h : Distinct s c) (hs : schedLoop cfg s = some t) :
    Keeping cfg.fp s c t := by
  have hpool := h.pool
  cases schedLoop_cases hs with
  | start hpc hq hp =>
    rw [hpc] at hpool
    have hperm : s.resPool.Perm c := hpool
    have hstart : (managedMode cfg.fp cfg.sort strat s.readyQ window).Sat
        (fun x a q => q.Perm (c ++ x) ∧ a.resources.Subperm (c ++ x)) s.resPool :=
      (hl.sat_managedMode cfg.fp cfg.sort hq hp).mono fun x a q ha =>
        ⟨ha.1.trans (hperm.append_right x), ha.2.1.trans (hperm.append_right x).subperm⟩
    exact h.repc (by rw [hpc]; rfl) hstart (.inl List.nil_subperm)
  | choose hpc =>
    rw [hpc] at hpool
    obtain ⟨hperm, hsub⟩ := hpool []
    rw [List.append_nil, List.append_nil] at hperm
    rw [List.append_nil] at hsub
    exact h.repc (by rw [hpc]; rfl) hperm (.inr hsub)
  | @operate p _ _ hpc hstep =>
    rw [hpc] at hpool
    have hp : p.Sat (fun x a q => q.Perm (c ++ x) ∧ a.resources.Subperm (c ++ x)) s.resPool := hpool
    exact h.repc (by rw [hpc]; rfl) (hp.step hstep) (.inl List.nil_subperm)
  | adjust hpc hjobs hu => exact updateResourcePool_keeping h hpc hjobs hu
  | giveUp hpc =>
    rw [hpc] at hpool
    exact h.repc (by rw [hpc]; rfl) hpool (.inl List.nil_subperm)
  | rest hpc =>
    rw [hpc] at hpool
    exact h.repc (by rw [hpc]; rfl) hpool (.inl List.nil_subperm)
  | remove hpc =>
    rw [hpc] at hpool
    exact h.repc (by rw [hpc]; rfl) hpool (.inl (by rw [hpc]; exact .refl _))
  | claim hpc => exact claim_keeping h hpc
  | add hpc =>
    rw [hpc] at hpool
    refine h.keeping hpool ?_ (.inl ?_) h.threads rfl rfl rfl
    · simp only [State.held, hpc, SchedPc.claimed, List.flatMap_cons, List.nil_append, List.append_assoc]
      exact .refl _
    · rw [hpc]
      exact .refl _

/-! ## The dispatcher and the threads it starts -/

theorem dispatcherLoop_keeping (hl : Life s) (h : Distinct s c) (hs : dispatcherLoop s = some t) : Keeping fp s c t := by
  cases dispatcherLoop_cases hs with
  | pop hd hq =>
    refine h.keeping h.pool ?_ (.inl (.refl _)) h.threads rfl rfl rfl
    refine List.perm_iff_count.mpr fun r => ?_
    simp only [State.held, hd, hq, List.flatMap_cons, List.flatMap_nil, List.count_append, List.count_nil,
      Option.toList]
    omega
  | skip hd hstarted => exact absurd hstarted (hl.not_skipped hd)
  | @start p hd =>
    have hheld : State.held { s with
        dispatcher := none
        started := p.1.jid :: s.started
        threads := ⟨p.1, p.2, .calling⟩ :: s.threads } = s.held := by
      simp only [State.held, hd, List.flatMap_cons, List.flatMap_nil, List.append_nil, Option.toList, Thread.held,
        List.append_assoc]
    refine h.keeping h.pool (by rw [hheld]) (.inl (.refl _)) (fun u hu => ?_) rfl rfl rfl
    rcases List.mem_cons.mp hu with rfl | hu
    · refine h.all.subperm (List.Sublist.subperm ?_)
      rw [State.held, hd]
      simp only [Option.toList, List.flatMap_cons, List.flatMap_nil, List.append_nil]
      exact ((List.sublist_append_right _ _).trans (List.sublist_append_left _ _)).trans
        (List.sublist_append_right _ _)
    · exact h.threads u hu

theorem runJob_keeping {i : Nat} {rsp : Msg} (hl : Life s) (h : Distinct s c) (hs : runJob i rsp s = some t) :
    Keeping fp s c t := by
  obtain ⟨th, hth, hstep⟩ := runJob_cases hs
  have hmem : th ∈ s.threads := List.mem_of_getElem? hth
  have hothers : ∀ u ∈ s.threads.eraseIdx i, Fresh s.resourceId u.res :=
    fun u hu => h.threads u (List.mem_of_mem_eraseIdx hu)
  have hthreads : ∀ phase, ∀ u ∈ { th with phase } :: s.threads.eraseIdx i, Fresh s.resourceId u.res := by
    intro phase u hu
    rcases List.mem_cons.mp hu with rfl | hu
    · exact h.threads th hmem
    · exact hothers u hu
  have hheld := flatMap_thread Thread.held hth
  cases hstep with
  | answer rsp hph _ =>
    have hres : th.held = th.res := by rw [Thread.held, hph]
    rw [hres] at hheld
    exact h.keeping h.pool (hheld.symm.append_left _) (.inl (.refl _)) (hthreads _) rfl rfl rfl
  | @giveBack r todo hph =>
    have hres : th.held = r :: todo := by rw [Thread.held, hph]
    rw [hres] at hheld
    have hback : (r :: State.held { s with
        threads := { th with phase := .returning todo } :: s.threads.eraseIdx i
        resPool := s.resPool ++ [r] }).Perm s.held := by
      refine List.perm_iff_count.mpr fun x => ?_
      have h1 := hheld.count_eq x
      simp only [State.held, List.flatMap_cons, Thread.held, List.count_append, List.count_cons] at h1 ⊢
      omega
    have hmore : ∀ l : List Resource, (l ++ [r] ++ State.held { s with
        threads := { th with phase := .returning todo } :: s.threads.eraseIdx i
        resPool := s.resPool ++ [r] }).Perm (l ++ s.held) := by
      intro l
      rw [List.append_assoc]
      exact hback.append_left l
    refine ⟨c ++ [r], ⟨h.pos, h.pool.push [r], h.all.subperm (hmore c).subperm, ?_, hthreads _⟩, fun _ hc => ?_⟩
    · exact h.pending.subperm ((List.Sublist.append_right (List.sublist_append_left _ [r]) _).subperm.trans
        (hmore s.pc.unclaimed).subperm)
    · exact ⟨(hmore c).length_eq.trans hc.count, hc.chosen.trans (List.sublist_append_left _ _).subperm, hc.found⟩
  | finish hph =>
    have hres : th.held = [] := by rw [Thread.held, hph]
    rw [hres] at hheld
    exact h.keeping h.pool (hheld.symm.append_left _) (.inl (.refl _)) (hthreads _) rfl rfl rfl
  | leave hph =>
    have hres : th.held = [] := by rw [Thread.held, hph]
    rw [hres] at hheld
    rw [hl.removeJobFromRunQ_eq hmem hph]
    exact h.keeping h.pool (hheld.symm.append_left _) (.inl (.refl _)) hothers rfl rfl rfl

/-! ## Whole runs -/

/-- **One step** of any thread. -/
theorem step_keeping {cfg : Config} {a : Act} (hl : Life s) (h : Distinct s c) (hs : s.step cfg a = some t) :
    Keeping cfg.fp s c t := by
  cases a with
  | drawId request =>
    obtain rfl := Option.some.inj hs
    exact h.same rfl rfl rfl rfl rfl rfl rfl
  | enqueue i =>
    obtain ⟨j, -, -, rfl⟩ := enqueue_cases hs
    exact h.same rfl rfl rfl rfl rfl rfl rfl
  | sched => exact schedLoop_keeping hl h hs
  | dispatch => exact dispatcherLoop_keeping hl h hs
  | run i rsp => exact runJob_keeping hl h hs
  | finish =>
    cases finishedLoop_cases hs with
    | pop _ _ => exact h.same rfl rfl rfl rfl rfl rfl rfl
    | flag _ => exact h.same rfl rfl rfl rfl rfl rfl rfl
  | copy i =>
    obtain ⟨j, -, -, rfl⟩ := copyResponse_cases hs
    exact h.same rfl rfl rfl rfl rfl rfl rfl

/-- **Every run** keeps resources apart. -/
theorem reachable_distinct {cfg : Config} (h : (system cfg).Reachable s) : ∃ c, Distinct s c := by
  have hinv : Life s ∧ ∃ c, Distinct s c := by
    refine h.invariant (I := fun s => Life s ∧ ∃ c, Distinct s c) ⟨life_init cfg, _, distinct_init cfg⟩ ?_
    rintro s a t ⟨hl, c, hd⟩ hst
    obtain ⟨c', hd', -⟩ := step_keeping hl hd hst
    exact ⟨step_life hl hst, c', hd'⟩
  exact hinv.2

/-- Every run that spares the resources chosen conserves them. -/
theorem reachable_conserved {cfg : Config} (h : (system cfg).ReachableIf (fun s _ => Spares cfg.fp s) s) :
    ∃ c, Distinct s c ∧ Conserved s c := by
  have hinv : Life s ∧ ∃ c, Distinct s c ∧ Conserved s c := by
    refine h.invariant (I := fun s => Life s ∧ ∃ c, Distinct s c ∧ Conserved s c)
      ⟨life_init cfg, _, distinct_init cfg, conserved_init cfg⟩ ?_
    rintro s a t ⟨hl, c, hd, hc⟩ hspare hst
    obtain ⟨c', hd', hc'⟩ := step_keeping hl hd hst
    exact ⟨step_life hl hst, c', hd', hc' hspare hc⟩
  exact hinv.2

/-- No resource was missing when it was claimed; and when no algorithm is being tried, the resources of the pool and
those held for jobs are distinct and as many as were provisioned. -/
def State.ConservesResources (s : State) : Prop :=
  s.erasedEnd = false ∧ (s.pc.locksReadyQ = false →
    (rids (s.resPool ++ s.held)).Nodup ∧ (s.resPool ++ s.held).length = s.provisionedResources)

/-- **Resources are conserved** in every run whose elasticity steps give back only resources that were not chosen. -/
theorem resources_conserved (cfg : Config) (s : State) (h : (system cfg).ReachableIf (fun s _ => Spares cfg.fp s) s) :
    s.ConservesResources := by
  obtain ⟨c, hd, hc⟩ := reachable_conserved h
  refine ⟨hc.found, fun hpc => ?_⟩
  have hperm := (hd.pool.perm hpc).append_right s.held
  exact ⟨(hd.all.subperm hperm.subperm).1, hperm.length_eq.trans hc.count⟩

/-- Two late jobs have a second and a third resource provisioned; then two early ones have the third, which is not
theirs, given back. -/
theorem resources_conserved_spared : ∃ s, (system localConfig).ReachableIf (fun s _ => Spares .ieee s) s ∧
    s.provisionedResources = 2 ∧ rids s.held = [1, 2] ∧ s.ConservesResources := by
  obtain ⟨s, hr, hs⟩ := Machine.exists_reachableIf (system localConfig) (fun s _ => Spares .ieee s)
    (serve (targetRequest 1000 0) 24 ++ serve (targetRequest 1000 0) 24 ++ List.replicate 4 .dispatch ++
      [.run 0 msgEmpty, .run 0 msgEmpty, .run 1 msgEmpty, .run 0 msgEmpty] ++
      serve (targetRequest 2000 20000) 0 ++ serve (targetRequest 2000 20000) 42)
    (fun s => (s.provisionedResources, rids s.held)) (2, [1, 2]) (by decide +kernel)
  exact ⟨s, hr, congrArg Prod.fst hs, congrArg Prod.snd hs, resources_conserved _ s hr⟩

/-- A job that ends long before its target makes the elasticity step give back the resource it was to run on: the pool
is empty when the resource is to be claimed. -/
theorem elasticity_takes_chosen : ¬∀ (cfg : Config) (s : State), (system cfg).Reachable s → s.ConservesResources := by
  intro h
  obtain ⟨s, hr, hs⟩ := Machine.exists_reachableIf (system localConfig) (fun _ _ => True)
    (serve (targetRequest 100 10000) 24)
    (fun s => (s.erasedEnd, rids s.resPool, rids s.held, s.provisionedResources)) (true, [], [1], 0)
    (by decide +kernel)
  have hend : s.erasedEnd = true := congrArg Prod.fst hs
  have hfound := (h localConfig s hr).1
  rw [hend] at hfound
  cases hfound

end Hydrogen
