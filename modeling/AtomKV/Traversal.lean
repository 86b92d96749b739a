import AtomKV.Lookup
import AtomKV.Lib.Walk

/-!
# Traversal

`BTreeIterator::First` and `Next` on a tree that is in its pages. The stack of an iterator is a
path; `Next` climbs it up to a branch with a child to the right, and goes down to that child's first
leaf. From `begin()`, and from any record, the iteration reads the records that follow and ends.
-/

set_option autoImplicit false

namespace AtomKV

/-! ## Steps on a path -/

/-- The records to the left of a place. -/
def Place.past {D : ℕ} (p : Place D) : List (Bytes × Bytes × Bool) :=
  records (p.ctx.before ++ recordItems p.left)

/-- The records to the right of a place. -/
def Place.future {D : ℕ} (p : Place D) : List (Bytes × Bytes × Bool) :=
  records (recordItems p.right ++ p.ctx.after)

theorem Place.contents_eq {D : ℕ} {p : Place D} {e : Entry} (hhit : p.hit = some e) :
    p.tree.contents = p.past ++ e.data :: p.future := by
  unfold Tree.contents past future
  rw [p.flat_tree, hhit, records_append, records_append (recordItems _)]
  rfl

/-- The same branch with the hole one child further to the right. -/
def Frame.shift {d : ℕ} (f : Frame d) (t : Tree d) (e : Entry) (esR : List Entry)
    (ksR : List (Tree d)) (len : ksR.length = esR.length) : Frame d where
  pgid := f.pgid
  txid := f.txid
  esL := f.esL ++ [e]
  ksL := f.ksL ++ [t]
  esR := esR
  ksR := ksR
  lenL := by rw [List.length_append, List.length_append, f.lenL]; rfl
  lenR := len

section Shift

variable {d : ℕ} {f : Frame d} {t k : Tree d} {e : Entry} {esR : List Entry} {ksR : List (Tree d)}
  {len : ksR.length = esR.length}

theorem Frame.fill_shift (hes : f.esR = e :: esR) (hks : f.ksR = k :: ksR) :
    (f.shift t e esR ksR len).fill k = f.fill t := by
  obtain ⟨pgid, txid, esL, ksL, esR', ksR', lenL, lenR⟩ := f
  obtain rfl : esR' = e :: esR := hes
  obtain rfl : ksR' = k :: ksR := hks
  have h₁ : esL ++ [e] ++ esR = esL ++ e :: esR := List.append_assoc ..
  have h₂ : ksL ++ [t] ++ k :: ksR = ksL ++ t :: k :: ksR := List.append_assoc ..
  unfold Frame.fill Frame.shift
  simp only [h₁, h₂]

theorem Frame.records_before_shift :
    records (f.shift t e esR ksR len).before = records f.before ++ t.contents := by
  have hlen : (f.ksL.map Tree.flat).length = (separatorItems f.esL).length := by simpa using f.lenL
  have hbefore : (f.shift t e esR ksR len).before = f.before ++ (t.flat ++ [.separator e.key]) := by
    unfold Frame.before Frame.shift
    rw [separatorItems_append, List.map_append, weavePre_append hlen]
    simp
  rw [hbefore, records_append, records_append]
  simp [Tree.contents]

end Shift

section Steps

variable {env : Env} {s : TxState} {D : ℕ}

open BTreeIterator

/-- From the root of a subtree down to its first record. -/
theorem Readable.firstLoop {d D : ℕ} (t : Tree d) (c : Ctx d D) (h : Readable env (c.plug t).objs s)
    (hfull : t.Full) (hdepth : D < kStackSize) (fuel : Nat) (hfuel : d < fuel) (status : Status) :
    ∃ (p : Place D) (e : Entry), p.tree = c.plug t ∧ p.hit = some e ∧ p.past = records c.before ∧
      BTreeIterator.firstLoop fuel ⟨c.stack, status⟩ t.pgid s = (.ok ⟨p.stack, status⟩, s) := by
  have hstack : c.stack.length + d < kStackSize := by
    rw [c.length_stack]
    exact hdepth
  -- On the height: `First` goes to child 0 until it stands in a leaf.
  induction d generalizing fuel with
  | zero =>
    obtain ⟨pgid, txid, es, rfl⟩ := t.exists_leaf
    have hm : Obj.node pgid (.leaf txid es) ∈ (c.plug (.leaf pgid txid es)).objs :=
      c.mem_objs_plug (Multiset.mem_singleton_self _)
    obtain ⟨n, hrep, hget, -⟩ := h.read hm
    obtain ⟨fuel, rfl⟩ := Nat.exists_eq_add_of_lt hfuel
    cases es with
    | nil => exact absurd rfl hfull
    | cons e es =>
      refine ⟨⟨c, pgid, txid, [], some e, es⟩, e, rfl, rfl, ?_, ?_⟩
      · unfold Place.past
        rw [recordItems_nil, List.append_nil]
      · have hleaf : n.isLeaf = true := hrep.isLeaf_eq
        have hcount : n.count ≠ 0 := by
          rw [hrep.count_eq]
          exact Nat.succ_ne_zero _
        rw [show 0 + fuel + 1 = fuel + 1 by omega]
        unfold BTreeIterator.firstLoop
        rw [Tree.pgid_leaf, Exec.bind_of_ok hget, if_pos hleaf, if_neg hcount]
        exact Readable.push_ok status _ s (by omega)
  | succ d ih =>
    obtain ⟨pgid, txid, es, kids, len, rfl⟩ := t.exists_branch
    have hm : Obj.node pgid (.branch txid es (kids.map Tree.pgid)) ∈
        (c.plug (.branch pgid txid es kids len)).objs :=
          c.mem_objs_plug (Multiset.mem_cons_self _ _)
    obtain ⟨n, hrep, hget, -⟩ := h.read hm
    obtain ⟨fuel, rfl⟩ := Nat.exists_eq_add_of_lt hfuel
    cases kids with
    | nil => cases len
    | cons k ks =>
      have hleaf : n.isLeaf = false := hrep.isLeaf_eq
      have hcount : 0 < n.count := by
        rw [hrep.count_eq]
        exact List.length_pos_iff.2 hfull.1
      have hchild := h.getLeftChild hm (i := 0) (c := k.pgid) rfl
      -- The frame with nothing on its left: nothing is passed by on the way down.
      let f : Frame d := ⟨pgid, txid, [], [], es, ks, rfl, Nat.succ.inj len⟩
      obtain ⟨p, e, htree, hhit, hpast, hrun⟩ := ih k (.under f c) h (hfull.2 k List.mem_cons_self)
        (d + 1 + fuel) (by omega) (by
          show c.stack.length + 1 + d < kStackSize
          omega)
      refine ⟨p, e, htree, hhit, ?_, ?_⟩
      · rw [hpast]
        show records (c.before ++ []) = _
        rw [List.append_nil]
      · unfold BTreeIterator.firstLoop
        rw [Tree.pgid_branch, Exec.bind_of_ok hget, hleaf]
        simp only [Bool.false_eq_true, if_false]
        rw [Exec.bind_of_ok (Readable.push_ok status _ s (by omega))]
        unfold assert
        rw [Exec.require_bind hcount, Exec.bind_of_ok hchild]
        exact hrun

/-- `First` at a child. -/
theorem Readable.first {d D : ℕ} (t : Tree d) (c : Ctx d D) (h : Readable env (c.plug t).objs s)
    (hfull : t.Full) (hdepth : D < kStackSize) (status : Status) :
    ∃ (p : Place D) (e : Entry), p.tree = c.plug t ∧ p.hit = some e ∧ p.past = records c.before ∧
      BTreeIterator.first ⟨c.stack, status⟩ t.pgid s = (.ok ⟨p.stack, .kIter⟩, s) := by
  have hne : t.pgid ≠ kPageInvalidId := h.tree_pgid_ne_invalid fun o ho => c.mem_objs_plug ho
  have hlen := c.length_stack
  obtain ⟨p, e, htree, hhit, hpast, hrun⟩ :=
    h.firstLoop t c hfull hdepth (kStackSize + 1) (by omega) .kIter
  refine ⟨p, e, htree, hhit, hpast, ?_⟩
  unfold BTreeIterator.first
  rw [if_neg hne]
  exact hrun

/-- The loop of `Next` from a finished subtree: up to a branch with a child to the right of the
path, and down into it; or off the tree. -/
theorem Readable.nextLoop {d D : ℕ} (c : Ctx d D) (t : Tree d) (h : Readable env (c.plug t).objs s)
    (hfull : c.Full) (hdepth : D < kStackSize) (status : Status) :
    (records c.after = [] ∧ BTreeIterator.nextLoop status c.stack s = (.ok ⟨[], status⟩, s)) ∨
      ∃ (p : Place D) (e : Entry), p.tree = c.plug t ∧ p.hit = some e ∧
        p.past = records c.before ++ t.contents ∧
        BTreeIterator.nextLoop status c.stack s = (.ok ⟨p.stack, .kIter⟩, s) := by
  induction c with
  | top => exact .inl ⟨rfl, rfl⟩
  | @under d D f c ih =>
    obtain ⟨hf, hc⟩ := hfull
    have hm : Obj.node f.pgid (.branch f.txid (f.esL ++ f.esR)
        (f.ksL.map Tree.pgid ++ t.pgid :: f.ksR.map Tree.pgid)) ∈ ((Ctx.under f c).plug t).objs :=
          f.obj_mem c t
    obtain ⟨n, hrep, hget, -⟩ := h.read hm
    have hcount : n.count = f.esL.length + f.esR.length := by
      rw [hrep.count_eq]
      exact List.length_append ..
    have hbranch : n.isBranch = true := hrep.isBranch_eq
    have hleaf : n.isLeaf = false := hrep.isLeaf_eq
    cases hes : f.esR with
    | nil =>
      -- the subtree is the tail child: the branch is finished as well
      have hcount' : n.count = f.esL.length := by
        rw [hcount, hes]
        rfl
      have hstep : BTreeIterator.nextLoop status (Ctx.under f c).stack s =
          BTreeIterator.nextLoop status c.stack s := by
        conv_lhs => unfold BTreeIterator.nextLoop
        simp only [Ctx.stack]
        rw [Exec.bind_of_ok hget, if_neg (by omega), if_neg (by omega)]
      have hafter : records (Ctx.under f c).after = records c.after := by
        show records (f.after ++ c.after) = _
        rw [Frame.after_nil hes]
        rfl
      have hbefore : records (Ctx.under f c).before ++ t.contents =
          records c.before ++ (f.fill t).contents := by
        show records (c.before ++ f.before) ++ _ = records c.before ++ records (f.fill t).flat
        rw [f.flat_fill, Frame.after_nil hes]
        simp [Tree.contents]
      rw [hstep, hafter, hbefore]
      exact ih (f.fill t) h hc hdepth
    | cons e esR =>
      -- the child behind the next separator
      obtain ⟨k, ksR, hks⟩ := List.exists_cons_of_length_eq_add_one (by rw [f.lenR, hes]; rfl)
      have len : ksR.length = esR.length := by
        have := f.lenR
        rw [hes, hks] at this
        exact Nat.succ.inj this
      have hfill : (f.shift t e esR ksR len).fill k = f.fill t := Frame.fill_shift hes hks
      have hplug : (Ctx.under (f.shift t e esR ksR len) c).plug k = (Ctx.under f c).plug t :=
        congrArg c.plug hfill
      obtain ⟨p, e', htree, hhit, hpast, hrun⟩ :=
        Readable.first k (.under (f.shift t e esR ksR len) c)
        (hplug ▸ h) (hf.2.2 k (by rw [hks]; exact List.mem_cons_self)) hdepth status
      have hstack : (Ctx.under (f.shift t e esR ksR len) c).stack =
          (f.pgid, f.esL.length + 1) :: c.stack := by
        show (f.pgid, (f.esL ++ [e]).length) :: c.stack = _
        rw [List.length_append]
        rfl
      refine .inr ⟨p, e', htree.trans hplug, hhit, ?_, ?_⟩
      · rw [hpast]
        show records (c.before ++ (f.shift t e esR ksR len).before) =
          records (c.before ++ f.before) ++ t.contents
        rw [records_append, records_append, Frame.records_before_shift, List.append_assoc]
      · rw [hstack] at hrun
        have hcount' : n.count = f.esL.length + (esR.length + 1) := by
          rw [hcount, hes]
          rfl
        unfold BTreeIterator.nextLoop
        simp only [Ctx.stack]
        rw [Exec.bind_of_ok hget]
        by_cases hlast : esR = []
        · subst hlast
          obtain rfl : ksR = [] := List.length_eq_zero_iff.1 len
          have hm' : Obj.node f.pgid (.branch f.txid (f.esL ++ f.esR)
              ((f.ksL.map Tree.pgid ++ [t.pgid]) ++ [k.pgid])) ∈ ((Ctx.under f c).plug t).objs := by
            rw [hks] at hm
            simpa using hm
          have hone : n.count = f.esL.length + 1 := hcount'
          rw [if_neg (by omega), if_pos ⟨hbranch, hone.symm⟩, Exec.bind_of_ok (h.getTailChild hm')]
          exact hrun
        · have hpos := List.length_pos_iff.2 hlast
          have hchild : BranchNode.getLeftChild f.pgid (f.esL.length + 1) s = (.ok k.pgid, s) := by
            refine h.getLeftChild hm ?_
            rw [List.getElem?_append_right (by simp [f.lenL]), hks]
            simp [f.lenL]
          rw [if_pos (by omega), hleaf]
          simp only [Bool.false_eq_true, if_false]
          rw [Exec.bind_of_ok hchild]
          exact hrun

/-- **`Next`.** From a record to the next one, or off the tree. -/
theorem Place.next (p : Place D) (h : Readable env p.tree.objs s) (hfull : p.tree.RootFull)
    (hdepth : D < kStackSize) {e : Entry} (hhit : p.hit = some e) (status : Status) :
    (p.future = [] ∧ BTreeIterator.next ⟨p.stack, status⟩ s = (.ok ⟨[], status⟩, s)) ∨
      ∃ (p' : Place D) (e' : Entry) (status' : Status), p'.tree = p.tree ∧ p'.hit = some e' ∧
        p.future = e'.data :: p'.future ∧ (status' = status ∨ status' = .kIter) ∧
        BTreeIterator.next ⟨p.stack, status⟩ s = (.ok ⟨p'.stack, status'⟩, s) := by
  -- what comes after the past and the record is the same for both places
  have hfuture : ∀ {p' : Place D} {e' : Entry}, p'.tree = p.tree → p'.hit = some e' →
      p'.past = p.past ++ [e.data] → p.future = e'.data :: p'.future := by
    intro p' e' htree hhit' hpast
    have h₁ := Place.contents_eq hhit
    have h₂ := Place.contents_eq hhit'
    rw [htree, h₁, hpast, List.append_assoc] at h₂
    exact List.cons.inj (List.append_cancel_left h₂) |>.2
  have hrec : p.past ++ [e.data] = p.past ++ records (recordItems p.hit.toList) := by
    rw [hhit]
    rfl
  obtain ⟨n, hrep, hget, -⟩ := h.read p.leaf_mem
  have hleaf : n.isLeaf = true := hrep.isLeaf_eq
  have hbranch : n.isBranch = false := hrep.isBranch_eq
  have hcount : n.count = p.left.length + (1 + p.right.length) := by
    rw [hrep.count_eq]
    unfold Place.entries
    rw [hhit]
    simp
    omega
  have hstack : p.stack ≠ [] := List.cons_ne_nil _ _
  unfold BTreeIterator.next assert
  rw [Exec.require_bind hstack]
  unfold BTreeIterator.nextLoop Place.stack
  simp only
  rw [Exec.bind_of_ok hget]
  cases hright : p.right with
  | cons e' right =>
    -- the next record of the leaf
    refine .inr ⟨⟨p.ctx, p.pgid, p.txid, p.left ++ [e], some e', right⟩, e', status,
      ?_, rfl, ?_, .inl rfl, ?_⟩
    · unfold Place.tree Place.entries
      rw [hhit, hright]
      simp
    · refine hfuture ?_ rfl ?_
      · unfold Place.tree Place.entries
        rw [hhit, hright]
        simp
      · unfold Place.past
        simp
    · rw [hright, List.length_cons] at hcount
      rw [if_pos (by omega), if_pos hleaf]
      simp
  | nil =>
    -- the leaf is finished
    have hcount' : n.count = p.left.length + 1 := by
      rw [hcount, hright]
      rfl
    rw [if_neg (by omega), if_neg (by simp [hbranch])]
    have hafter : records p.ctx.after = p.future := by
      unfold Place.future
      rw [hright]
      rfl
    have hpast : records p.ctx.before ++ (Tree.leaf p.pgid p.txid p.entries).contents =
        p.past ++ [e.data] := by
      unfold Place.past Place.entries
      rw [hhit, hright]
      simp [Tree.contents]
    rcases Readable.nextLoop p.ctx (.leaf p.pgid p.txid p.entries) h (p.ctx_full hfull)
      hdepth status with
      ⟨hnil, hrun⟩ | ⟨p', e', htree, hhit', hpast', hrun⟩
    · exact .inl ⟨hafter ▸ hnil, hrun⟩
    · exact .inr
        ⟨p', e', .kIter, htree, hhit', hfuture htree hhit' (hpast'.trans hpast), .inr rfl, hrun⟩

end Steps

/-! ## Iteration -/

/-- The record that the caller reads at an iterator. -/
def BTreeIterator.record (env : Env) (iter : BTreeIterator) : TxM (Bytes × Bytes × Bool) := do
  let key ← BTreeIterator.key env iter
  let value ← BTreeIterator.value env iter
  let b ← BTreeIterator.isBucket iter
  return (key, value, b)

theorem BTreeIterator.IsAt.record {env : Env} {s : TxState} {iter : BTreeIterator}
    {d : Bytes × Bytes × Bool} (h : iter.IsAt env s d) : iter.record env s = (.ok d, s) := by
  unfold BTreeIterator.record
  rw [Exec.bind_of_ok h.key, Exec.bind_of_ok h.value, Exec.bind_of_ok h.isBucket]
  rfl

/-- `for (; iter != end(); ++iter)` from `iter` on reads the records `l`. -/
abbrev BTreeIterator.Forward (env : Env) (s : TxState) (iter : BTreeIterator)
    (l : List (Bytes × Bytes × Bool)) : Prop :=
  Exec.Walk BTreeIterator.isEnd (BTreeIterator.record env) BTreeIterator.next s iter l

section Iteration

variable {env : Env} {s : TxState} {D : ℕ}

/-- From a record on the iteration reads it and all the records behind it. -/
theorem Place.forward {p : Place D} (h : Readable env p.tree.objs s) (hfull : p.tree.RootFull)
    (hdepth : D < kStackSize) {e : Entry} (hhit : p.hit = some e) {status : Status}
    (hstatus : status ≠ .kInvalid) : BTreeIterator.Forward env s ⟨p.stack, status⟩
      (e.data :: p.future) := by
  -- by induction on the number of records that follow
  induction hn : p.future.length generalizing p e status with
  | zero =>
    have hnil : p.future = [] := List.length_eq_zero_iff.1 hn
    have hat := Place.isAt h (Place.getElem?_entries hhit) hstatus
    rcases p.next h hfull hdepth hhit status with ⟨-, hrun⟩ | ⟨p', e', status', -, -, hfuture, -⟩
    · rw [hnil]
      exact .step hat.not_isEnd hat.record hrun (.done (.inl rfl))
    · rw [hnil] at hfuture
      cases hfuture
  | succ n ih =>
    have hat := Place.isAt h (Place.getElem?_entries hhit) hstatus
    rcases p.next h hfull hdepth hhit status
      with ⟨hnil, -⟩ | ⟨p', e', status', htree, hhit', hfuture, hst, hrun⟩
    · rw [hnil] at hn
      cases hn
    · have hstatus' : status' ≠ .kInvalid := by
        rcases hst with rfl | rfl
        · exact hstatus
        · exact fun h => by cases h
      rw [hfuture] at hn ⊢
      exact .step hat.not_isEnd hat.record hrun
        (ih (htree.symm ▸ h) (htree.symm ▸ hfull) hhit' hstatus' (Nat.succ.inj hn))

/-- The records of an ordered tree are in strictly ascending order. -/
theorem Shape.Ordered.ascending {cmp : Bytes → Bytes → Ordering} {t : Shape} (h : t.Ordered cmp) :
    t.contents.Pairwise fun d d' => cmp d.1 d'.1 = .lt := by
  unfold Shape.Ordered at h
  refine List.Pairwise.filterMap _ ?_ h
  intro x y hxy d hd d' hd'
  cases x with
  | separator a => cases hd
  | record d₀ =>
    cases y with
    | separator a => cases hd'
    | record d₁ =>
      obtain rfl := Option.some.inj hd
      obtain rfl := Option.some.inj hd'
      exact hxy

/-- `begin()` is at the first record, and where there is none, at nothing. -/
theorem Shows.begin_cases {t : Tree D} (h : Shows env (.tree t) s) (hfull : t.RootFull) :
    (∃ (p : Place D) (e : Entry), p.tree = t ∧ p.hit = some e ∧ t.contents = e.data :: p.future ∧
        BTree.begin s = (.ok ⟨p.stack, .kIter⟩, s)) ∨
      (t.contents = [] ∧ BTree.begin s = (.ok ⟨[], .kIter⟩, s)) := by
  have hroot : s.rootPgid = t.pgid := h.root
  have hbegin : BTree.begin s = BTreeIterator.first BTreeIterator.init t.pgid s := by
    unfold BTree.begin
    rw [Exec.read_bind, hroot]
  rw [hbegin]
  by_cases hf : t.Full
  · obtain ⟨p, e, htree, hhit, hpast, hrun⟩ :=
      Readable.first t .top h.readable hf h.depth_lt BTreeIterator.init.status
    have htree' : p.tree = t := htree
    have hcontents := Place.contents_eq hhit
    rw [hpast, htree'] at hcontents
    exact .inl ⟨p, e, htree', hhit, hcontents, hrun⟩
  · -- only a leaf at the root is empty
    cases D with
    | succ D => exact absurd hfull hf
    | zero =>
      obtain ⟨pgid, txid, es, rfl⟩ := t.exists_leaf
      obtain rfl : es = [] := by
        by_contra hne
        exact hf hne
      have hm : Obj.node pgid (.leaf txid []) ∈ (Tree.leaf pgid txid []).objs :=
        Multiset.mem_singleton_self _
      obtain ⟨n, hrep, hget, -⟩ := h.readable.read hm
      have hleaf : n.isLeaf = true := hrep.isLeaf_eq
      have hcount : n.count = 0 := hrep.count_eq
      refine .inr ⟨rfl, ?_⟩
      unfold BTreeIterator.first
      rw [Tree.pgid_leaf, if_neg (h.readable.pgid_ne_invalid hm)]
      unfold BTreeIterator.firstLoop
      rw [Exec.bind_of_ok hget, if_pos hleaf, if_pos hcount]
      rfl

/-- Without a root page `begin()` is `end()`. -/
theorem BTree.begin_empty (hroot : s.rootPgid = kPageInvalidId) :
    BTree.begin s = (.ok BTreeIterator.init, s) := by
  unfold BTree.begin BTreeIterator.first
  rw [Exec.read_bind, if_pos hroot]
  rfl

theorem Shows.begin_forward {t : Shape} (h : Shows env t s) (hfull : t.RootFull) :
    ∃ iter, BTree.begin s = (.ok iter, s) ∧ iter.Forward env s t.contents := by
  cases t with
  | empty => exact ⟨_, BTree.begin_empty h.root, .done (.inl rfl)⟩
  | tree t =>
    rcases h.begin_cases hfull with ⟨p, e, htree, hhit, hcontents, hrun⟩ | ⟨hnil, hrun⟩
    · refine ⟨_, hrun, ?_⟩
      show BTreeIterator.Forward env s _ t.contents
      rw [hcontents]
      exact Place.forward (htree.symm ▸ h.readable) (htree.symm ▸ hfull) h.depth_lt
        hhit (fun h => by cases h)
    · refine ⟨_, hrun, ?_⟩
      show BTreeIterator.Forward env s _ t.contents
      rw [hnil]
      exact .done (.inl rfl)

theorem Shows.get_forward {t : Shape} (h : Shows env t s) (hfull : t.RootFull) {key : Bytes}
    (hkey : ∃ d ∈ t.contents, d.1 = key) :
    ∃ iter, BTree.get env key s = (.ok iter, s) ∧
      iter.Forward env s (t.contents.filter fun d => env.comparator d.1 key ≠ .lt) := by
  have := h.readable.ok.trans
  obtain ⟨d, hd, hdk⟩ := hkey
  cases t with
  | empty => cases hd
  | @tree D t =>
    obtain ⟨p, hp, hlower⟩ := h.lowerBound key
    obtain ⟨e, hhit, rfl⟩ := hp.eq_hit hd hdk
    have hstatus : p.status = .kEq := p.status_eq_kEq.2 (by rw [hhit]; rfl)
    have htree : p.tree = t := hp.tree_eq
    refine ⟨⟨p.stack, .kEq⟩, ?_, ?_⟩
    · unfold BTree.get
      rw [Exec.bind_of_ok hlower, hstatus, if_neg (fun hne => hne rfl)]
      rfl
    -- the records before the found one have smaller keys, those behind it greater ones
    · have hcontents : (Shape.tree t).contents = p.past ++ e.data :: p.future := by
        have heq := Place.contents_eq hhit
        rw [htree] at heq
        exact heq
      have hpast : p.past.filter (fun d => env.comparator d.1 key ≠ .lt) = [] := by
        refine List.filter_eq_nil_iff.2 fun d hd => ?_
        have hlt : env.comparator d.1 key = .lt := hp.low _ (mem_records.1 hd)
        simp [hlt]
      have hrest : (e.data :: p.future).filter (fun d => env.comparator d.1 key ≠ .lt) =
          e.data :: p.future := by
        refine List.filter_eq_self.2 fun d hd => decide_eq_true ?_
        rcases List.mem_cons.1 hd with rfl | hd
        · rw [hdk]
          exact Compare.irrefl key
        · exact Compare.not_lt_of_lt (hp.high _ (mem_records.1 hd))
      rw [hcontents, List.filter_append, hpast, hrest]
      exact Place.forward (htree.symm ▸ h.readable) (htree.symm ▸ hfull) h.depth_lt
        hhit (fun h => by cases h)

/-- **Forward iteration.** From `begin()` it reads all records in ascending order and ends; from a
key that is there it reads the records whose key is not below it. -/
theorem Shows.forward_reads {t : Shape} (h : Shows env t s) (hfull : t.RootFull) :
    (t.contents.Pairwise fun d d' => env.comparator d.1 d'.1 = .lt) ∧
      (∃ iter, BTree.begin s = (.ok iter, s) ∧ iter.Forward env s t.contents) ∧
      ∀ key, (∃ d ∈ t.contents, d.1 = key) → ∃ iter, BTree.get env key s = (.ok iter, s) ∧
        iter.Forward env s (t.contents.filter fun d => env.comparator d.1 key ≠ .lt) :=
  ⟨h.ordered.ascending, h.begin_forward hfull, fun _ hkey => h.get_forward hfull hkey⟩

/-- Over two leaves. -/
theorem forward_twoLeaves : ∃ iter, BTree.begin twoLeavesState = (.ok iter, twoLeavesState) ∧
    iter.Forward smallEnv twoLeavesState
      [([1], longValue, false), ([2], longValue, false), ([9], longValue, false)] :=
  (shows_twoLeaves.forward_reads fullRoot_twoLeaves).2.1

end Iteration

end AtomKV
