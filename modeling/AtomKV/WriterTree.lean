import AtomKV.Dictionary
import AtomKV.Isolation
import AtomKV.Allocator

/-!
# The tree of the writer

What a transaction begins with is the last version: the tree in the file, and maps in which no page
is counted twice. That is the well-formed tree that `Put` and `Delete` work on, and what they leave
is what a commit makes the next version of. All records are slim.
-/

set_option autoImplicit false

namespace AtomKV

/-! ## The pages of a slim tree -/

section Pages

variable {env env' : Env} {t : Shape} {s : TxState} {P : ℕ}

theorem Shows.of_env (h : Shows env t s) (ok : env'.Ok) (hP : env'.pageSize = env.pageSize)
    (hcmp : env'.comparator = env.comparator) : Shows env' t s where
  root := h.root
  readable :=
    { pageSize_pos := hP ▸ h.readable.pageSize_pos
      nodeAt := fun q v hm => hP ▸ h.readable.nodeAt q v hm
      ok := ok }
  once := h.once
  ordered := hcmp ▸ h.ordered
  keyed := h.keyed

/-- The pages of the tree can be reached. -/
theorem Shows.reachable_of_count (h : Shows env t s) {p : Nat}
    (hp : 0 < objsCount env.pageSize t.objs p) :
    Reachable env.pageSize s.pager.pages s.rootPgid p := by
  obtain ⟨o, ho, hcount⟩ : ∃ o ∈ t.objs, 0 < objCount env.pageSize o p := by
    by_contra hnone
    push Not at hnone
    refine Nat.ne_of_gt hp (Multiset.sum_eq_zero fun n hn => ?_)
    obtain ⟨o, ho, rfl⟩ := Multiset.mem_map.1 hn
    exact Nat.eq_zero_of_le_zero (hnone o ho)
  obtain ⟨q, v, rfl⟩ := t.node_of_mem ho
  rcases Nat.eq_zero_or_pos (runCount (q, 1) p) with hother | hself
  · obtain ⟨e, he, hrun⟩ : ∃ e ∈ v.entries, 0 < runCount (e.run, e.pages env.pageSize) p := by
      by_contra hnone
      push Not at hnone
      have hentries : entriesCount env.pageSize v.entries p = 0 := by
        refine List.sum_eq_zero fun n hn => ?_
        obtain ⟨e, he, rfl⟩ := List.mem_map.1 hn
        exact Nat.eq_zero_of_le_zero (hnone e he)
      have hsum : objCount env.pageSize (.node q v) p = runCount (q, 1) p + entriesCount
        env.pageSize v.entries p := rfl
      omega
    exact h.reachable_run ho he hrun
  · obtain ⟨hlow, hhigh⟩ := (runCount_pos_iff _ _).1 hself
    have hlow : q ≤ p := hlow
    have hhigh : p < q + 1 := hhigh
    obtain rfl : q = p := by omega
    exact .inl (h.visits_of_mem ho)

/-- No record of a slim tree has overflow pages. -/
theorem Tree.Slim.pages_eq (hP : PageRange P) {d : ℕ} {t : Tree d} (h : t.Slim P) {q : Nat}
    {v : NodeView} (hm : Obj.node q v ∈ t.objs) {e : Entry} (he : e ∈ v.entries) :
      e.pages P = 0 := by
  induction d with
  | zero =>
    obtain ⟨p, txid, es, rfl⟩ := t.exists_leaf
    obtain ⟨rfl, rfl⟩ := Obj.node.inj (Multiset.mem_singleton.1 hm)
    exact if_neg (h e he).not_overflow
  | succ d ih =>
    obtain ⟨p, txid, es, kids, len, rfl⟩ := t.exists_branch
    rw [Tree.objs_branch] at hm
    rcases Multiset.mem_cons.1 hm with heq | hm
    · obtain ⟨rfl, rfl⟩ := Obj.node.inj heq
      exact if_neg ((h.1 e he).slim hP).not_overflow
    · obtain ⟨k, hk, hm⟩ := Tree.mem_sum_objs.1 hm
      exact ih (h.2.2 k hk) hm

/-- So all its pages are nodes. -/
theorem Shows.visits_of_slim (hP : PageRange env.pageSize) {D : ℕ} {t : Tree D}
    (h : Shows env (.tree t) s) (hslim : t.Slim env.pageSize) {p : Nat}
    (hp : Reachable env.pageSize s.pager.pages s.rootPgid p) :
    Visits s.pager.pages s.rootPgid p := by
  rcases hp with hp | ⟨q, n, slot, hq, hn, hslot, hrun⟩
  · exact hp
  · obtain ⟨v, hm⟩ := h.visits hq
    obtain ⟨n', hrep, -, hpage, -⟩ := h.readable.read hm
    obtain rfl : n = n' := Page.node.inj (hn.symm.trans hpage)
    obtain ⟨i, hi⟩ := List.getElem?_of_mem hslot
    have hlen : n.slots.length = v.entries.length := hrep.count_eq
    obtain ⟨e, he⟩ : ∃ e, v.entries[i]? = some e := by
      have hlt : i < n.slots.length := (List.getElem?_eq_some_iff.1 hi).1
      exact ⟨_, List.getElem?_eq_getElem (hlen ▸ hlt)⟩
    rw [hrep.slotRun_eq he hi, hslim.pages_eq hP hm (List.mem_of_getElem? he), runCount_zero]
      at hrun
    exact absurd hrun (Nat.lt_irrefl 0)

end Pages

/-! ## Pages that nothing refers to -/

/-- The pages of the list, as junk. -/
def junkPages (l : List Nat) : Multiset Obj := (l.map fun p => Obj.junk p 1 : List Obj)

theorem JunkOnly.junkPages (l : List Nat) : JunkOnly (junkPages l) := by
  intro o ho
  obtain ⟨p, -, rfl⟩ := List.mem_map.1 (Multiset.mem_coe.1 ho)
  exact ⟨p, 1, rfl⟩

theorem objsCount_junkPages (P : ℕ) (l : List Nat) (p : Nat) :
    objsCount P (junkPages l) p = l.count p := by
  induction l with
  | nil => rfl
  | cons q l ih =>
    have hcons : AtomKV.junkPages (q :: l) = Obj.junk q 1 ::ₘ AtomKV.junkPages l := rfl
    have hone : objCount P (.junk q 1) p = if q = p then 1 else 0 := by
      show runCount (q, 1) p = _
      rw [runCount_mk]
      split_ifs <;> omega
    rw [hcons, objsCount_cons, ih, hone, List.count_cons, Nat.add_comm]
    simp only [beq_iff_eq]

/-- The pages of a file that have no count. -/
def uncounted (count : Nat → ℕ) (n : Nat) : List Nat :=
  (List.range n).filter fun p => 2 ≤ p ∧ count p = 0

theorem count_uncounted (count : Nat → ℕ) (n p : Nat) :
    (uncounted count n).count p = if 2 ≤ p ∧ p < n ∧ count p = 0 then 1 else 0 := by
  have hnodup : (uncounted count n).Nodup := List.nodup_range.filter _
  have hmem : p ∈ uncounted count n ↔ 2 ≤ p ∧ p < n ∧ count p = 0 := by
    unfold uncounted
    rw [List.mem_filter, List.mem_range, decide_eq_true_iff]
    exact and_left_comm
  by_cases hp : 2 ≤ p ∧ p < n ∧ count p = 0
  · rw [if_pos hp]
    exact List.count_eq_one_of_mem hnodup (hmem.2 hp)
  · rw [if_neg hp]
    exact List.count_eq_zero.2 fun h => hp (hmem.1 h)

/-! ## From a tree in the file to a well-formed one -/

section Begin

variable {e : Env} {t : Shape} {u : TxState} {m : Dictionary} {b : ℕ}

/-- The pages that the maps hold, and those behind the end of the file. -/
structure MapsIn (u : TxState) : Prop where
  free : ∀ r ∈ u.pager.freeMap, r.1 + r.2 ≤ u.metaStruct.pageCount
  drawn : ∀ r ∈ u.pager.allocRecords, r.1 + r.2 ≤ u.metaStruct.pageCount
  pending : Pager.PendingIn u.pager.pendingMap u.metaStruct.pageCount
  sorted : Pager.PendingSorted u.pager.pendingMap

/-- **A slim tree that can be read is well-formed**, when no page is counted twice: the pages that
are not counted are lost. -/
theorem Shows.holdsMap (h : Shows e t u) (hfull : t.RootFull) (hslim : t.Slim e.pageSize)
    (hm : m.Lists t.contents) (hcount : ∀ p, objsCount e.pageSize t.objs p + availCount u p +
      Pager.pendingCount u.pager.pendingMap p ≤ if 2 ≤ p then 1 else 0)
    (hmaps : MapsIn u) (hroom : u.metaStruct.pageCount + b ≤ kPageMaxCount) :
    ∃ Γ : Scope, Γ.env = e ∧ HoldsMap Γ b m 0 u := by
  -- How often a page is accounted for: in the tree, as available, or as pending.
  let total : Nat → ℕ := fun p =>
    objsCount e.pageSize t.objs p + availCount u p + Pager.pendingCount u.pager.pendingMap p
  let Γ : Scope :=
    { env := e
      ok := h.readable.ok
      txMeta := u.metaStruct
      keep := fun _ => False
      pages := fun _ => .raw []
      pending := Pager.pendingCountAt u.pager.pendingMap
      drawn := fun p => runsCount u.pager.freeMap p + runsCount u.pager.allocRecords p }
  refine ⟨Γ, rfl, t, junkPages (uncounted total u.metaStruct.pageCount), .junkPages _,
    ⟨?_, h.ordered, hfull, ?_⟩, hslim, hm⟩
  · refine ⟨fun o ho => ?_, fun p => ?_, fun p hk => hk.elim, fun _ _ _ => rfl, fun _ => rfl,
      hmaps.free, hmaps.drawn, hmaps.pending, hmaps.sorted, rfl, Nat.le_refl _, hroom, h.root⟩
    · rcases Multiset.mem_add.1 ho with ho | ho
      · obtain ⟨q, v, rfl⟩ := t.node_of_mem ho
        exact (h.readable.nodeAt q v ho).node
      · rw [add_zero] at ho
        obtain ⟨q, n, rfl⟩ := JunkOnly.junkPages _ o ho
        trivial
    · have hle : total p ≤ if 2 ≤ p then 1 else 0 := hcount p
      have hbehind : u.metaStruct.pageCount ≤ p → 1 ≤ availCount u p := fun hp => by
        unfold availCount
        rw [if_pos hp]
        exact Nat.le_add_left _ _
      show objsCount e.pageSize (t.objs + (_ + 0)) p + availCount u p + Pager.pendingCount
        u.pager.pendingMap p = _
      rw [add_zero, objsCount_add, objsCount_junkPages, count_uncounted]
      -- A page that is nowhere counts as lost, and becomes junk; all others count once.
      by_cases hlost : 2 ≤ p ∧ p < u.metaStruct.pageCount ∧ total p = 0
      · rw [if_pos hlost, if_pos hlost.1]
        have hzero : objsCount e.pageSize t.objs p + availCount u p + Pager.pendingCount
            u.pager.pendingMap p = 0 :=
          hlost.2.2
        omega
      · rw [if_neg hlost]
        have htotal : total p = if 2 ≤ p then 1 else 0 := by
          by_cases h2 : 2 ≤ p
          · rw [if_pos h2] at hle ⊢
            by_cases hp : u.metaStruct.pageCount ≤ p
            · have hone := hbehind hp
              have hsum : total p = objsCount e.pageSize t.objs p + availCount u p +
                Pager.pendingCount u.pager.pendingMap p := rfl
              omega
            · have hne : total p ≠ 0 := fun hz => hlost ⟨h2, Nat.lt_of_not_le hp, hz⟩
              omega
          · rw [if_neg h2] at hle ⊢
            exact Nat.eq_zero_of_le_zero hle
        rw [← htotal]
        show _ + 0 + availCount u p + _ = objsCount e.pageSize t.objs p + availCount u p + _
        rw [Nat.add_zero]
  · cases t with
    | empty => trivial
    | tree t => exact t.safe_of_keep_nothing

end Begin

/-! ## From a well-formed tree to a version -/

/-- The version is a tree with slim records that stands for the dictionary. -/
def Image.Stands (env : ManagerEnv) (V : Image) (m : Dictionary) : Prop :=
  ∃ t, Shows env.reader t V.state ∧ t.RootFull ∧ t.Slim env.pageSize ∧ m.Lists t.contents ∧
    ∀ p, objsCount env.pageSize t.objs p ≤ if 2 ≤ p then 1 else 0

theorem Image.Stands.lists {env : ManagerEnv} {V : Image} {m : Dictionary} (h : V.Stands env m) :
    m.Lists (V.records env.pageSize) := by
  obtain ⟨t, hshows, -, -, hm, -⟩ := h
  have hrecords : V.records env.pageSize = t.contents := hshows.snapshot_eq
  rw [hrecords]
  exact hm

section Commit

variable {env : ManagerEnv} {s : Manager} {info : MetaInfo} {m : Dictionary} {Γ : Scope} {b : ℕ}

/-- What the transaction holds is tidy, and a version that stands for the dictionary. -/
theorem HoldsMap.commits (h : HoldsMap Γ b m 0 (s.txState info)) (ok : env.reader.Ok)
    (henv : Γ.env = env.tx s) :
    (∃ t, Tidy env.reader t (s.txState info)) ∧ (⟨info, s.pager.pages⟩ : Image).Stands env m := by
  obtain ⟨t, G, -, hwf, hslim, hm⟩ := h
  have hP : Γ.P = env.pageSize := congrArg Env.pageSize henv
  have hshows : Shows env.reader t (s.txState info) :=
    hwf.shows.of_env ok hP.symm (congrArg Env.comparator henv).symm
  -- what the transaction owns is neither free nor pending
  have hcount : ∀ p, objsCount env.pageSize t.objs p + availCount (s.txState info) p +
      Pager.pendingCount s.pager.pendingMap p ≤ if 2 ≤ p then 1 else 0 := fun p => by
    have hp := hwf.own.count p
    rw [hP, objsCount_add] at hp
    have hpending : Pager.pendingCount (s.txState info).pager.pendingMap p = Pager.pendingCount
      s.pager.pendingMap p := rfl
    omega
  refine ⟨⟨t, hshows, hwf.full, fun p => (hcount p).trans ?_, hwf.own.pendingIn, fun p n hp _ =>
    ?_⟩, t, hshows.congr rfl fun _ _ => rfl, hwf.full, hP ▸ hslim, hm, fun p => ?_⟩
  · split_ifs
    · exact Nat.le_refl 1
    · exact Nat.zero_le 1
  · cases t with
    | empty =>
      have hpos := hshows.count_of_reachable hp
      exact absurd hpos (Nat.lt_irrefl 0)
    | tree t =>
      have hrange : PageRange env.pageSize := hP ▸ Γ.hP
      have htree : t.Slim env.pageSize := hP ▸ hwf.own.slim hslim
      exact hshows.visits_of_slim hrange htree hp
  · have hp := hcount p
    omega

end Commit

end AtomKV
