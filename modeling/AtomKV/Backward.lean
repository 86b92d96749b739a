import AtomKV.IteratorEquality

/-!
# Backward iteration

`BTreeIterator::Last` and `Prev` on a tree that is in its pages. `Last` goes down through the left
child of the last slot, so it never reaches the tail child: only in a tree that is one leaf does it
find the last record, and only there is backward iteration the mirror image of forward iteration.
-/

set_option autoImplicit false

namespace AtomKV

/-- `for (; iter != end(); --iter)` from `iter` on reads the records `l`. -/
abbrev BTreeIterator.Backward (env : Env) (s : TxState) (iter : BTreeIterator)
    (l : List (Bytes × Bytes × Bool)) : Prop :=
  Exec.Walk BTreeIterator.isEnd (BTreeIterator.record env) BTreeIterator.prev s iter l

/-- The iterator is at a record of the tree. -/
structure BTreeIterator.In {D : ℕ} (t : Tree D) (iter : BTreeIterator) (p : Place D) : Prop where
  tree_eq : p.tree = t
  hit : p.hit ≠ none
  stack_eq : iter.stack = p.stack
  status : iter.status ≠ .kInvalid

/-- `step` and then `back` leads to an iterator that equals `iter` and can be dereferenced. -/
def BTreeIterator.Returns (env : Env) (s : TxState) (step back : BTreeIterator → TxM BTreeIterator)
    (iter : BTreeIterator) : Prop :=
  ∃ iter' iter'' d, step iter s = (.ok iter', s) ∧ back iter' s = (.ok iter'', s) ∧
    iter''.eq iter = true ∧ iter''.IsAt env s d

/-- Backward iteration mirrors forward iteration. -/
structure BTree.Mirrors (env : Env) {D : ℕ} (t : Tree D) (s : TxState) : Prop where
  backward : ∃ iter, BTreeIterator.prev .init s = (.ok iter, s) ∧
    iter.Backward env s t.contents.reverse
  next_prev : ∀ (iter : BTreeIterator) (p : Place D), iter.In t p →
    iter.Returns env s BTreeIterator.next BTreeIterator.prev
  prev_next : ∀ (iter : BTreeIterator) (p : Place D), iter.In t p → p.past ≠ [] →
    iter.Returns env s BTreeIterator.prev BTreeIterator.next

section Last

variable {env : Env} {s : TxState}

open BTreeIterator

/-- The loop of `Last` from the root of a subtree: it stops at a record with everything behind the
subtree still to come, and with more than that when the subtree has a branch. -/
theorem Readable.lastLoop {d D : ℕ} (t : Tree d) (c : Ctx d D) (h : Readable env (c.plug t).objs s)
    (hfull : t.Full) (hdepth : D < kStackSize) (fuel : Nat) (hfuel : d < fuel) (status : Status) :
    ∃ (p : Place D) (e : Entry) (l : List (Bytes × Bytes × Bool)), p.tree = c.plug t ∧
      p.hit = some e ∧ p.future = l ++ records c.after ∧ (l = [] ↔ d = 0) ∧
      BTreeIterator.lastLoop fuel ⟨c.stack, status⟩ t.pgid s = (.ok ⟨p.stack, status⟩, s) := by
  have hstack : c.stack.length + d < kStackSize := by
    rw [c.length_stack]
    exact hdepth
  induction d generalizing fuel with
  | zero =>
    obtain ⟨pgid, txid, es, rfl⟩ := t.exists_leaf
    have hm : Obj.node pgid (.leaf txid es) ∈ (c.plug (.leaf pgid txid es)).objs :=
      c.mem_objs_plug (Multiset.mem_singleton_self _)
    obtain ⟨n, hrep, hget, -⟩ := h.read hm
    obtain ⟨fuel, rfl⟩ := Nat.exists_eq_add_of_lt hfuel
    obtain ⟨es, e, rfl⟩ := (List.eq_nil_or_concat' es).resolve_left hfull
    have hleaf : n.isLeaf = true := hrep.isLeaf_eq
    have hcount : n.count = es.length + 1 := by
      rw [hrep.count_eq]
      exact List.length_append ..
    refine ⟨⟨c, pgid, txid, es, some e, []⟩, e, [], rfl, rfl, rfl, by simp, ?_⟩
    rw [show 0 + fuel + 1 = fuel + 1 by omega]
    unfold BTreeIterator.lastLoop
    rw [Tree.pgid_leaf, Exec.bind_of_ok hget, if_pos hleaf, if_neg (by omega), hcount]
    exact Readable.push_ok status _ s (by omega)
  | succ d ih =>
    obtain ⟨pgid, txid, es, kids, len, rfl⟩ := t.exists_branch
    have hm : Obj.node pgid (.branch txid es (kids.map Tree.pgid)) ∈
        (c.plug (.branch pgid txid es kids len)).objs :=
          c.mem_objs_plug (Multiset.mem_cons_self _ _)
    obtain ⟨n, hrep, hget, -⟩ := h.read hm
    obtain ⟨fuel, rfl⟩ := Nat.exists_eq_add_of_lt hfuel
    -- the last two children: the left child of the last slot and the tail child
    obtain ⟨es, e', rfl⟩ := (List.eq_nil_or_concat' es).resolve_left hfull.1
    obtain ⟨kids, tail, rfl⟩ := (List.eq_nil_or_concat' kids).resolve_left (by
      rintro rfl
      cases len)
    have hlen : kids.length = es.length + 1 := by simpa using len
    obtain ⟨kids, k, rfl⟩ := (List.eq_nil_or_concat' kids).resolve_left (by
      rintro rfl
      cases hlen)
    have hlen' : kids.length = es.length := by simpa using hlen
    have hleaf : n.isLeaf = false := hrep.isLeaf_eq
    have hcount : n.count = es.length + 1 := by
      rw [hrep.count_eq]
      exact List.length_append ..
    have hchild : BranchNode.getLeftChild pgid (n.count - 1) s = (.ok k.pgid, s) := by
      refine h.getLeftChild hm ?_
      rw [hcount, Nat.add_sub_cancel, List.map_append, List.map_append, List.append_assoc,
        List.getElem?_append_right (by simp [hlen'])]
      simp [hlen']
    let f : Frame d := ⟨pgid, txid, es, kids, [e'], [tail], hlen', rfl⟩
    have hfill : f.fill k = .branch pgid txid (es ++ [e']) (kids ++ [k] ++ [tail]) len := by
      have hkids : kids ++ [k] ++ [tail] = kids ++ k :: [tail] := List.append_assoc ..
      unfold Frame.fill
      simp only [hkids]
      rfl
    have hplug : (Ctx.under f c).plug k =
        c.plug (.branch pgid txid (es ++ [e']) (kids ++ [k] ++ [tail]) len) :=
      congrArg c.plug hfill
    have hk : k.Full :=
      hfull.2 k (List.mem_append.2 (.inl (List.mem_append.2 (.inr (List.mem_singleton_self k)))))
    have htail : tail.Full := hfull.2 tail (List.mem_append.2 (.inr (List.mem_singleton_self tail)))
    obtain ⟨p, e, l, htree, hhit, hfuture, -, hrun⟩ :=
      ih k (.under f c) (hplug ▸ h) hk (d + 1 + fuel) (by omega) (by
      show c.stack.length + 1 + d < kStackSize
      omega)
    have hafter : records (Ctx.under f c).after = tail.contents ++ records c.after := by
      show records (f.after ++ c.after) = _
      rw [Frame.after_cons rfl rfl, records_append]
      simp [Tree.contents]
    refine ⟨p, e, l ++ tail.contents, htree.trans hplug, hhit, ?_, ?_, ?_⟩
    · rw [hfuture, hafter, List.append_assoc]
    · constructor
      · exact fun hnil => absurd (List.append_eq_nil_iff.1 hnil).2 (Tree.Full.contents_ne_nil htail)
      · intro hd
        cases hd
    · unfold BTreeIterator.lastLoop
      rw [Tree.pgid_branch, Exec.bind_of_ok hget, hleaf]
      simp only [Bool.false_eq_true, if_false]
      rw [Exec.bind_of_ok (Readable.push_ok status _ s (by omega))]
      unfold assert
      rw [Exec.require_bind (by omega), Exec.bind_of_ok hchild, hcount]
      exact hrun

/-- Before `end()` comes a record of the tree. It is the last one when the tree is a leaf. -/
theorem Shows.prev_off {D : ℕ} {t : Tree D} (h : Shows env (.tree t) s) (hfull : t.Full)
    (status : Status) :
    ∃ (p : Place D) (e : Entry), p.tree = t ∧ p.hit = some e ∧ (p.future = [] ↔ D = 0) ∧
      BTreeIterator.prev ⟨[], status⟩ s = (.ok ⟨p.stack, .kIter⟩, s) := by
  have hroot : s.rootPgid = t.pgid := h.root
  have hdepth := h.depth_lt
  obtain ⟨p, e, l, htree, hhit, hfuture, hl, hrun⟩ :=
    Readable.lastLoop t .top h.readable hfull hdepth (kStackSize + 1) (by omega) .kIter
  refine ⟨p, e, htree, hhit, ?_, ?_⟩
  · rw [hfuture, ← hl]
    constructor
    · exact fun hnil => (List.append_eq_nil_iff.1 hnil).1
    · intro hnil
      rw [hnil]
      rfl
  · rw [BTreeIterator.prev_of_off, hroot]
    exact hrun

end Last

/-! ## A tree that is one leaf -/

section OneLeaf

variable {env : Env} {s : TxState} {p : Place 0} {e : Entry} {status : Status}

theorem Place.ctx_eq_top (p : Place 0) : p.ctx = .top := by
  obtain ⟨ctx, pgid, txid, left, hit, right⟩ := p
  cases ctx with
  | top => rfl
  | under f c =>
    have := c.length_stack
    omega

theorem Place.stack_eq_singleton (p : Place 0) : p.stack = [(p.pgid, p.left.length)] := by
  unfold Place.stack
  rw [p.ctx_eq_top]
  rfl

theorem Place.past_eq (p : Place 0) : p.past = p.left.map Entry.data := by
  unfold Place.past
  rw [p.ctx_eq_top]
  exact records_recordItems p.left

/-- The place of the record before. -/
def Place.back (p : Place 0) (left : List Entry) (e' e : Entry) : Place 0 :=
  { p with left := left, hit := some e', right := e :: p.right }

theorem Place.tree_back {left : List Entry} {e' : Entry} (hhit : p.hit = some e)
    (hleft : p.left = left ++ [e']) :
    (p.back left e' e).tree = p.tree := by
  unfold Place.tree Place.entries Place.back
  rw [hhit, hleft]
  simp

/-- Within a leaf `Prev` goes one record to the left. -/
theorem Place.prev (p : Place 0) (h : Readable env p.tree.objs s) (status : Status)
    {left : List Entry} {e' : Entry} (hleft : p.left = left ++ [e']) :
    BTreeIterator.prev ⟨p.stack, status⟩ s = (.ok ⟨[(p.pgid, left.length)], status⟩, s) := by
  obtain ⟨n, hrep, hget, -⟩ := h.read p.leaf_mem
  have hleaf : n.isLeaf = true := hrep.isLeaf_eq
  have hlen : p.left.length = left.length + 1 := by
    rw [hleft]
    exact List.length_append ..
  rw [p.stack_eq_singleton, hlen]
  show BTreeIterator.prevLoop status [(p.pgid, left.length + 1)] s = _
  unfold BTreeIterator.prevLoop
  rw [Exec.bind_of_ok hget, if_pos (Nat.succ_pos _), if_pos hleaf]
  rfl

/-- At the first record `Prev` goes off the tree. -/
theorem Place.prev_first (p : Place 0) (h : Readable env p.tree.objs s) (status : Status)
    (hleft : p.left = []) : BTreeIterator.prev ⟨p.stack, status⟩ s = (.ok ⟨[], status⟩, s) := by
  obtain ⟨n, -, hget, -⟩ := h.read p.leaf_mem
  rw [p.stack_eq_singleton, hleft]
  show BTreeIterator.prevLoop status [(p.pgid, 0)] s = _
  unfold BTreeIterator.prevLoop
  rw [Exec.bind_of_ok hget, if_neg (Nat.lt_irrefl _)]
  rfl

/-- From a record of the leaf backward iteration reads it and the records before it, in
descending order. -/
theorem Place.backward (h : Readable env p.tree.objs s) (hhit : p.hit = some e)
    (hstatus : status ≠ .kInvalid) :
    BTreeIterator.Backward env s ⟨p.stack, status⟩ (e.data :: p.past.reverse) := by
  rw [p.past_eq]
  -- by induction on the records before, the last one first
  induction hleft : p.left using List.reverseRecOn generalizing p e with
  | nil =>
    have hat := Place.isAt h (Place.getElem?_entries hhit) hstatus
    exact .step hat.not_isEnd hat.record (p.prev_first h status hleft) (.done (.inl rfl))
  | append_singleton left e' ih =>
    have hat := Place.isAt h (Place.getElem?_entries hhit) hstatus
    have hrest :=
      ih (p := p.back left e' e) (e := e') (by rw [Place.tree_back hhit hleft]; exact h) rfl rfl
    rw [(p.back left e' e).stack_eq_singleton] at hrest
    rw [List.map_append, List.reverse_append]
    exact .step hat.not_isEnd hat.record (p.prev h status hleft) hrest

/-- In one leaf a place is known by the number of records before it. -/
theorem Place.stack_eq_of_length {p' : Place 0} (htree : p'.tree = p.tree)
    (hlen : p'.past.length = p.past.length) : p'.stack = p.stack := by
  have hpgid : p'.pgid = p.pgid := by
    have hroot : p'.tree.pgid = p.tree.pgid := congrArg Tree.pgid htree
    unfold Place.tree at hroot
    rw [p.ctx_eq_top, p'.ctx_eq_top] at hroot
    exact hroot
  have hleft : p'.left.length = p.left.length := by
    rw [p.past_eq, p'.past_eq] at hlen
    simpa using hlen
  rw [p.stack_eq_singleton, p'.stack_eq_singleton, hpgid, hleft]

theorem Place.eq_of_stack {D : ℕ} (p : Place D) (status status' : Status) :
    BTreeIterator.eq ⟨p.stack, status⟩ ⟨p.stack, status'⟩ = true := by
  unfold BTreeIterator.eq Place.stack
  simp

/-- In one leaf `++` and `--` return. -/
theorem Place.next_prev (h : Shows env (.tree p.tree) s) (hfull : p.tree.Full)
    (hhit : p.hit = some e) (hstatus : status ≠ .kInvalid) :
    BTreeIterator.Returns env s BTreeIterator.next BTreeIterator.prev ⟨p.stack, status⟩ := by
  have hcontents := Place.contents_eq hhit
  have hroot : p.tree.RootFull := trivial
  rcases p.next h.readable hroot h.depth_lt hhit status with
    ⟨hnil, hrun⟩ | ⟨p', e', status', htree, hhit', hfuture, hst, hrun⟩
  · -- off the tree, and back to the last record
    obtain ⟨p', e', htree, hhit', hlast, hprev⟩ := h.prev_off hfull status
    have hcontents' := Place.contents_eq hhit'
    have hlen : p'.past.length = p.past.length := by
      have := congrArg List.length
        (hcontents'.symm.trans ((congrArg Tree.contents htree).trans hcontents))
      rw [hnil, hlast.2 rfl] at this
      simpa using this
    have hstack := Place.stack_eq_of_length htree hlen
    rw [hstack] at hprev
    exact ⟨_, _, e.data, hrun, hprev, p.eq_of_stack _ _,
      Place.isAt h.readable (Place.getElem?_entries hhit) (fun h => by cases h)⟩
  · have hcontents' := Place.contents_eq hhit'
    have hlen : p'.past.length = p.past.length + 1 := by
      have := congrArg List.length
        (hcontents'.symm.trans ((congrArg Tree.contents htree).trans hcontents))
      rw [hfuture] at this
      simp only [List.length_append, List.length_cons] at this
      omega
    have hleft : p'.left ≠ [] := by
      intro hnil
      rw [p'.past_eq, hnil] at hlen
      cases hlen
    obtain ⟨left, x, hx⟩ := (List.eq_nil_or_concat' p'.left).resolve_left hleft
    have hprev := p'.prev (htree.symm ▸ h.readable) status' hx
    have hback : (p'.back left x e').stack = p.stack := Place.stack_eq_of_length
      ((Place.tree_back hhit' hx).trans htree) (by
        rw [p'.past_eq, hx] at hlen
        rw [Place.past_eq]
        simpa [Place.back] using hlen)
    rw [Place.stack_eq_singleton] at hback
    rw [show [(p'.pgid, left.length)] = p.stack from hback] at hprev
    have hstatus' : status' ≠ .kInvalid := by
      rcases hst with rfl | rfl
      · exact hstatus
      · exact fun h => by cases h
    exact ⟨_, _, e.data, hrun, hprev, p.eq_of_stack _ _,
      Place.isAt h.readable (Place.getElem?_entries hhit) hstatus'⟩

/-- In one leaf `--` and `++` return, where there is a record before. -/
theorem Place.prev_next (h : Shows env (.tree p.tree) s) (hhit : p.hit = some e)
    (hstatus : status ≠ .kInvalid) (hpast : p.past ≠ []) :
    BTreeIterator.Returns env s BTreeIterator.prev BTreeIterator.next ⟨p.stack, status⟩ := by
  have hleft : p.left ≠ [] := by
    intro hnil
    rw [p.past_eq, hnil] at hpast
    exact hpast rfl
  obtain ⟨left, x, hx⟩ := (List.eq_nil_or_concat' p.left).resolve_left hleft
  have hprev := p.prev h.readable status hx
  obtain ⟨n, hrep, hget, -⟩ := h.readable.read p.leaf_mem
  have hleaf : n.isLeaf = true := hrep.isLeaf_eq
  have hlen : p.left.length = left.length + 1 := by
    rw [hx]
    exact List.length_append ..
  have hcount : p.left.length < n.count := by
    rw [hrep.count_eq]
    exact (List.getElem?_eq_some_iff.1 (Place.getElem?_entries hhit)).1
  have hnext : BTreeIterator.next ⟨[(p.pgid, left.length)], status⟩ s =
      (.ok ⟨p.stack, status⟩, s) := by
    rw [p.stack_eq_singleton, hlen]
    show BTreeIterator.nextLoop status [(p.pgid, left.length)] s = _
    unfold BTreeIterator.nextLoop
    rw [Exec.bind_of_ok hget, if_pos (by omega), if_pos hleaf]
    rfl
  exact ⟨_, _, e.data, hprev, hnext, p.eq_of_stack _ _,
    Place.isAt h.readable (Place.getElem?_entries hhit) hstatus⟩

end OneLeaf

/-- **Backward iteration.** It mirrors forward iteration exactly in a tree that is one leaf: in any
other tree `Last` does not find the last record. -/
theorem Shows.mirrors_iff {env : Env} {s : TxState} {D : ℕ} {t : Tree D} (h : Shows env (.tree t) s)
    (hfull : t.Full) : BTree.Mirrors env t s ↔ D = 0 := by
  have := h.readable.ok.trans
  constructor
  · rintro ⟨⟨iter, hrun, hwalk⟩, -, -⟩
    obtain ⟨p, e, htree, hhit, hlast, hprev⟩ := h.prev_off hfull .kInvalid
    obtain rfl : ⟨p.stack, .kIter⟩ = iter := Except.ok.inj (Prod.mk.inj (hprev.symm.trans hrun)).1
    refine hlast.1 ?_
    by_contra hne
    -- the first record read is not the last one of the tree
    obtain ⟨future, d, hfuture⟩ := (List.eq_nil_or_concat' p.future).resolve_left hne
    have hcontents : t.contents = p.past ++ e.data :: p.future := by
      have heq := Place.contents_eq hhit
      rw [htree] at heq
      exact heq
    have hat : BTreeIterator.IsAt env s ⟨p.stack, .kIter⟩ e.data :=
      Place.isAt (htree.symm ▸ h.readable) (Place.getElem?_entries hhit) (fun h => by cases h)
    have hreverse : t.contents.reverse = d :: (p.past ++ e.data :: future).reverse := by
      rw [hcontents, hfuture, ← List.cons_append, ← List.append_assoc, List.reverse_append]
      rfl
    rw [hreverse] at hwalk
    cases hwalk with
    | step hn hread hstep hrest =>
      have heq : d = e.data := Except.ok.inj (Prod.mk.inj (hread.symm.trans hat.record)).1
      have hasc := h.ordered.ascending
      rw [show (Shape.tree t).contents = t.contents from rfl, hcontents, hfuture, heq] at hasc
      have hlt := (List.pairwise_cons.1 (List.pairwise_append.1 hasc).2.1).1 e.data
        (List.mem_append.2 (.inr (List.mem_singleton_self _)))
      exact Compare.irrefl _ hlt
  · rintro rfl
    constructor
    · obtain ⟨p, e, rfl, hhit, hlast, hprev⟩ := h.prev_off hfull .kInvalid
      refine ⟨_, hprev, ?_⟩
      have hcontents := Place.contents_eq hhit
      rw [hlast.2 rfl] at hcontents
      rw [hcontents, List.reverse_append]
      exact Place.backward h.readable hhit (fun h => by cases h)
    · rintro ⟨stack, status⟩ p ⟨rfl, hhit, rfl, hstatus⟩
      obtain ⟨e, hhit⟩ := Option.ne_none_iff_exists'.1 hhit
      exact Place.next_prev h hfull hhit hstatus
    · rintro ⟨stack, status⟩ p ⟨rfl, hhit, rfl, hstatus⟩ hpast
      obtain ⟨e, hhit⟩ := Option.ne_none_iff_exists'.1 hhit
      exact Place.prev_next h hhit hstatus hpast

section Example

/-- A tree that is one leaf. -/
def oneLeaf : Tree 0 := .leaf 2 1 [⟨[1], [10], false, 0⟩, ⟨[2], [20], false, 0⟩]

theorem wellFormed_oneLeaf :
    WellFormed (layoutScope smallEnv smallEnv_ok freshMeta 1) 0 (.tree oneLeaf) 0
    (layout 256 freshMeta 2 oneLeaf.nodes) :=
  wellFormed_layout (t := oneLeaf) (by decide) (by decide) (by decide) (by decide)
    (by unfold kPageMaxCount; show 1 + 2 + 0 ≤ _; omega)

theorem shows_oneLeaf : Shows smallEnv (.tree oneLeaf) (layout 256 freshMeta 2 oneLeaf.nodes) :=
  wellFormed_oneLeaf.shows

theorem mirrors_oneLeaf : BTree.Mirrors smallEnv oneLeaf (layout 256 freshMeta 2 oneLeaf.nodes) :=
  (shows_oneLeaf.mirrors_iff (by decide)).2 rfl

/-- **Before `end()` comes the first record of three.** -/
theorem not_mirrors : ¬ BTree.Mirrors smallEnv twoLeaves twoLeavesState ∧
    ((do
      let iter ← BTreeIterator.prev .init
      BTreeIterator.key smallEnv iter : TxM Bytes) twoLeavesState).1 = .ok [1] := by
  constructor
  · intro hmirrors
    cases (shows_twoLeaves.mirrors_iff (by decide)).1 hmirrors
  · decide +kernel

end Example

end AtomKV
