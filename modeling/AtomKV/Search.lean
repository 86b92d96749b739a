import AtomKV.Tree
import AtomKV.BTree
import Mathlib.Algebra.BigOperators.Fin
import Mathlib.Algebra.Order.BigOperators.Group.Finset

/-!
# Searching

`Node::LowerBound` on the sorted keys of a node, and the descent of `BTree::LowerBound` through an
ordered tree. The descent ends at a leaf; what lies to the left of its end is below the key, what
lies to the right is above it, and the iterator's status says whether the key is there.
-/

set_option autoImplicit false

namespace AtomKV

/-- The keys of a node in ascending order. -/
def KeysSorted (cmp : Bytes → Bytes → Ordering) (es : List Entry) : Prop :=
  es.Pairwise fun a b => cmp a.key b.key = .lt

section LowerBound

variable {env : Env} {O : Multiset Obj} {s : TxState} {q : Nat} {v : NodeView} {key : Bytes}

namespace Readable

/-- The search loop narrows the slots down to the first one that is not below the key. A slot at the
upper end has been compared with the key, so `eq` cannot miss an equal key. -/
theorem lowerBoundLoop (h : Readable env O s) (hm : Obj.node q v ∈ O)
    (hsorted : KeysSorted env.comparator v.entries) (fuel first len : Nat) (eq : Bool)
    (hfuel : len ≤ fuel) (hlen : first + len ≤ v.entries.length)
    (hlow : ∀ j < first, ∀ e, v.entries[j]? = some e → env.comparator e.key key = .lt)
    (hhigh : ∀ j, first + len ≤ j → ∀ e, v.entries[j]? = some e → env.comparator e.key key ≠ .lt)
    (heq : eq = true → ∃ e ∈ v.entries, env.comparator e.key key = .eq)
    (hmiss : ∀ e, v.entries[first + len]? = some e → env.comparator e.key key = .eq → eq = true) :
    ∃ i eq', Node.lowerBoundLoop env q key fuel first len eq s = (.ok (i, eq'), s) ∧
      i ≤ v.entries.length ∧
      (∀ j < i, ∀ e, v.entries[j]? = some e → env.comparator e.key key = .lt) ∧
      (∀ j, i ≤ j → ∀ e, v.entries[j]? = some e → env.comparator e.key key ≠ .lt) ∧
      (eq' = true → ∃ e ∈ v.entries, env.comparator e.key key = .eq) ∧
      ∀ e, v.entries[i]? = some e → env.comparator e.key key = .eq → eq' = true := by
  have := h.ok.trans
  induction fuel generalizing first len eq with
  | zero =>
    obtain rfl : len = 0 := by omega
    exact ⟨first, eq, rfl, hlen, hlow, hhigh, heq, hmiss⟩
  | succ fuel ih =>
    by_cases hzero : len = 0
    · subst hzero
      refine ⟨first, eq, ?_, hlen, hlow, hhigh, heq, hmiss⟩
      unfold Node.lowerBoundLoop
      rw [if_pos rfl]
      rfl
    · have hmid : first + len / 2 < v.entries.length := by omega
      have hget : v.entries[first + len / 2]? = some v.entries[first + len / 2] :=
        List.getElem?_eq_getElem hmid
      set e := v.entries[first + len / 2] with he
      have hmem : e ∈ v.entries := List.getElem_mem hmid
      have hstep : Node.lowerBoundLoop env q key (fuel + 1) first len eq s =
          if env.comparator e.key key = .lt then
            Node.lowerBoundLoop env q key fuel (first + len / 2 + 1) (len - len / 2 - 1)
              (eq || env.comparator e.key key == .eq) s
          else Node.lowerBoundLoop env q key fuel first (len / 2)
              (eq || env.comparator e.key key == .eq) s := by
        conv_lhs => unfold Node.lowerBoundLoop
        rw [if_neg hzero, Exec.bind_of_ok (h.getKey hm hget)]
        split_ifs <;> rfl
      have heq' : (eq || env.comparator e.key key == .eq) = true →
          ∃ e ∈ v.entries, env.comparator e.key key = .eq := by
        intro ht
        rcases Bool.or_eq_true_iff.1 ht with ht | ht
        · exact heq ht
        · exact ⟨e, hmem, by simpa using ht⟩
      rw [hstep]
      by_cases hlt : env.comparator e.key key = .lt
      · rw [if_pos hlt]
        refine ih _ _ _ (by omega) (by omega) (fun j hj e' he' => ?_)
          (fun j hj => hhigh j (by omega)) heq' ?_
        · -- everything up to the middle is below the key
          rcases Nat.lt_or_ge j (first + len / 2) with hlt' | hge
          · have hj' := (List.getElem?_eq_some_iff.1 he').1
            have hpair := List.pairwise_iff_getElem.1 hsorted j (first + len / 2) hj' hmid hlt'
            rw [(List.getElem?_eq_some_iff.1 he').2, ← he] at hpair
            exact Compare.lt_trans hpair hlt
          · obtain rfl : j = first + len / 2 := by omega
            rw [hget] at he'
            rw [← Option.some.inj he']
            exact hlt
        · intro e' he' hcmp
          rw [show first + len / 2 + 1 + (len - len / 2 - 1) = first + len by omega] at he'
          rw [hmiss e' he' hcmp, Bool.true_or]
      · rw [if_neg hlt]
        refine ih _ _ _ (by omega) (by omega) hlow (fun j hj e' he' => ?_) heq' ?_
        · -- everything from the middle on is not below the key
          rcases Nat.eq_or_lt_of_le hj with rfl | hgt
          · rw [hget] at he'
            rw [← Option.some.inj he']
            exact hlt
          · have hj' := (List.getElem?_eq_some_iff.1 he').1
            have hpair := List.pairwise_iff_getElem.1 hsorted (first + len / 2) j hmid hj' hgt
            rw [(List.getElem?_eq_some_iff.1 he').2, ← he] at hpair
            exact fun hk => hlt (Compare.lt_trans hpair hk)
        · intro e' he' hcmp
          rw [hget] at he'
          rw [Option.some.inj he', hcmp]
          simp

/-- **`Node::LowerBound`.** The keys before the slot are below the key. When the key is there, it is
at the slot, and `eq` says so; otherwise all keys from the slot on are above it. -/
theorem lowerBound (h : Readable env O s) (hm : Obj.node q v ∈ O)
    (hsorted : KeysSorted env.comparator v.entries) (key : Bytes) :
    ∃ A, (∀ a ∈ A, env.comparator a.key key = .lt) ∧
      ((∃ e B, v.entries = A ++ e :: B ∧ e.key = key ∧ (∀ b ∈ B, env.comparator key b.key = .lt) ∧
          Node.lowerBound env q key s = (.ok (A.length, true), s)) ∨
        (∃ B, v.entries = A ++ B ∧ (∀ b ∈ B, env.comparator key b.key = .lt) ∧
          Node.lowerBound env q key s = (.ok (A.length, false), s))) := by
  have := h.ok.trans
  have := h.ok.lawfulEq
  obtain ⟨i, eq, hrun, hi, hlow, hhigh, heq, hmiss⟩ := h.lowerBoundLoop hm hsorted
    v.entries.length 0 v.entries.length false (Nat.le_refl _) (by omega) (fun j hj => by omega)
    (fun j hj e he => show env.comparator e.key key ≠ .lt by
      rw [List.getElem?_eq_none (by omega)] at he
      cases he)
    (fun ht => by cases ht)
    (fun e he => by
      rw [List.getElem?_eq_none (by omega)] at he
      cases he)
  obtain ⟨A, B, hAB, rfl⟩ := ListAt.exists_split_le hi
  have hrun' : Node.lowerBound env q key s = (.ok (A.length, eq), s) := by
    unfold Node.lowerBound
    rw [Exec.bind_of_ok (h.countOf hm)]
    exact hrun
  have hA : ∀ a ∈ A, env.comparator a.key key = .lt := by
    intro a ha
    obtain ⟨j, hj, rfl⟩ := List.getElem_of_mem ha
    refine hlow j hj A[j] ?_
    rw [hAB, List.getElem?_append_left hj, List.getElem?_eq_getElem hj]
  have hB : ∀ e ∈ B, env.comparator e.key key ≠ .lt := by
    intro e he
    obtain ⟨j, hj, rfl⟩ := List.getElem_of_mem he
    refine hhigh (A.length + j) (Nat.le_add_right _ _) B[j] ?_
    rw [hAB, List.getElem?_append_right (Nat.le_add_right _ _), Nat.add_sub_cancel_left,
      List.getElem?_eq_getElem hj]
  have hgt : ∀ e ∈ B, e.key ≠ key → env.comparator key e.key = .lt := by
    intro e he hne
    by_contra hnot
    exact hne (Compare.eq_of_not_lt (hB e he) hnot)
  refine ⟨A, hA, ?_⟩
  cases eq with
  | true =>
    obtain ⟨e, he, hcmp⟩ := heq rfl
    have hkey : e.key = key := Compare.eq_iff.1 hcmp
    have heB : e ∈ B := by
      rw [hAB] at he
      rcases List.mem_append.1 he with he | he
      · have := hA e he
        rw [hcmp] at this
        cases this
      · exact he
    cases B with
    | nil => cases heB
    | cons e₀ B =>
      have hsorted' : KeysSorted env.comparator (e₀ :: B) := by
        unfold KeysSorted at hsorted
        rw [hAB] at hsorted
        exact (List.pairwise_append.1 hsorted).2.1
      -- the equal key is the first one of `B`: behind it only larger keys follow
      have hfirst : e = e₀ := by
        rcases List.mem_cons.1 heB with rfl | heB
        · rfl
        · have hlt := (List.pairwise_cons.1 hsorted').1 e heB
          rw [hkey] at hlt
          exact absurd hlt (hB e₀ List.mem_cons_self)
      subst hfirst
      refine .inl ⟨e, B, hAB, hkey, fun x hx => ?_, hrun'⟩
      rw [← hkey]
      exact (List.pairwise_cons.1 hsorted').1 x hx
  | false =>
    refine .inr ⟨B, hAB, fun x hx => hgt x hx fun hxk => ?_, hrun'⟩
    cases B with
    | nil => cases hx
    | cons e₀ B =>
      have hsorted' : KeysSorted env.comparator (e₀ :: B) := by
        unfold KeysSorted at hsorted
        rw [hAB] at hsorted
        exact (List.pairwise_append.1 hsorted).2.1
      have hne : e₀.key ≠ key := fun hk => by
        have := hmiss e₀ (by simp [hAB]) (Compare.eq_iff.2 hk)
        cases this
      rcases List.mem_cons.1 hx with rfl | hx
      · exact hne hxk
      · have hlt := (List.pairwise_cons.1 hsorted').1 x hx
        rw [hxk] at hlt
        exact hB e₀ List.mem_cons_self hlt

end Readable

end LowerBound

/-! ## Places in a tree -/

/-- The status that the descent leaves in a leaf. Behind the last record there is nothing to point
at; in a leaf without records the status does not say so. -/
def statusAt (left : List Entry) (hit : Option Entry) (right : List Entry) : Status :=
  if hit.isSome then .kEq
  else if left ≠ [] ∧ right = [] then .kInvalid
  else .kNe

theorem statusAt_eq_kEq (left : List Entry) (hit : Option Entry) (right : List Entry) :
    statusAt left hit right = .kEq ↔ hit.isSome := by
  unfold statusAt
  split_ifs <;> simp_all

/-- A place in a leaf of a tree: between two records, or at one. -/
structure Place (D : ℕ) where
  ctx : Ctx 0 D
  pgid : Nat
  txid : Nat
  left : List Entry
  hit : Option Entry
  right : List Entry

namespace Place

variable {D : ℕ}

/-- The records of the leaf. -/
def entries (p : Place D) : List Entry := p.left ++ (p.hit.toList ++ p.right)

/-- The tree that the place is in. -/
def tree (p : Place D) : Tree D := p.ctx.plug (.leaf p.pgid p.txid p.entries)

/-- The iterator's stack at the place. -/
def stack (p : Place D) : List (Nat × Nat) := (p.pgid, p.left.length) :: p.ctx.stack

/-- The status of an iterator that the descent leaves at the place. -/
def status (p : Place D) : Status := statusAt p.left p.hit p.right

theorem status_eq_kEq (p : Place D) : p.status = .kEq ↔ p.hit.isSome := statusAt_eq_kEq ..

/-- The place where `key` belongs in the tree `t`. -/
structure At (cmp : Bytes → Bytes → Ordering) (key : Bytes) (p : Place D) (t : Tree D) : Prop where
  tree_eq : p.tree = t
  low : ∀ x ∈ p.ctx.before ++ recordItems p.left, x.Low cmp key
  high : ∀ x ∈ recordItems p.right ++ p.ctx.after, x.High cmp key
  hit_key : ∀ e ∈ p.hit, e.key = key

end Place

/-! ## The descent -/

/-- The keys of a branch in an ordered tree are sorted. -/
theorem keysSorted_of_branch {cmp : Bytes → Bytes → Ordering} {d D : ℕ} (c : Ctx (d + 1) D)
    {pgid txid : Nat} {es : List Entry} {kids : List (Tree d)} {len : kids.length = es.length + 1}
    (h : (c.plug (.branch pgid txid es kids len)).Ordered cmp) : KeysSorted cmp es := by
  unfold Tree.Ordered at h
  rw [Ctx.flat_plug] at h
  have hflat := (List.pairwise_append.1 (List.pairwise_append.1 h).2.1).1
  have hsub :=
    hflat.sublist
      (sublist_weave
        (show (kids.map Tree.flat).length = (separatorItems es).length + 1 by simpa using len))
  unfold separatorItems at hsub
  rw [List.pairwise_map] at hsub
  exact hsub

theorem keysSorted_of_leaf {cmp : Bytes → Bytes → Ordering} {D : ℕ} (c : Ctx 0 D) {pgid txid : Nat}
    {es : List Entry} (h : (c.plug (.leaf pgid txid es)).Ordered cmp) : KeysSorted cmp es := by
  unfold Tree.Ordered at h
  rw [Ctx.flat_plug] at h
  have hflat : (recordItems es).Pairwise _ :=
    (List.pairwise_append.1 (List.pairwise_append.1 h).2.1).1
  unfold recordItems at hflat
  rw [List.pairwise_map] at hflat
  exact hflat

/-- A branch seen from one of its children. -/
theorem Tree.branch_eq_fill {d : ℕ} (pgid txid : Nat) (A B : List Entry) (kids : List (Tree d))
    (len : kids.length = (A ++ B).length + 1) :
    ∃ (f : Frame d) (t : Tree d), Tree.branch pgid txid (A ++ B) kids len = f.fill t ∧
      f.pgid = pgid ∧ f.txid = txid ∧ f.esL = A ∧ f.esR = B := by
  rw [List.length_append] at len
  have hlt : A.length < kids.length := by omega
  obtain ⟨ksL, ksR, hkids, hksL⟩ := ListAt.exists_split (List.getElem?_eq_getElem hlt)
  refine ⟨⟨pgid, txid, A, ksL, B, ksR, hksL, ?_⟩, kids[A.length], ?_, rfl, rfl, rfl, rfl⟩
  · have := congrArg List.length hkids
    rw [List.length_append, List.length_cons] at this
    omega
  · unfold Frame.fill
    congr

section Descent

variable {env : Env} {O : Multiset Obj} {s : TxState} {key : Bytes}

open BTreeIterator

/-- The separators around the chosen child keep everything else on its side of the key. -/
theorem Frame.low_high {cmp : Bytes → Bytes → Ordering} [Std.TransCmp cmp] {d : ℕ} (f : Frame d)
    (t : Tree d) (hord : (f.fill t).Ordered cmp) (hL : ∀ a ∈ f.esL, cmp key a.key ≠ .lt)
    (hR : ∀ a ∈ f.esR, cmp key a.key = .lt) :
    (∀ x ∈ f.before, x.Low cmp key) ∧ ∀ x ∈ f.after, x.High cmp key := by
  unfold Tree.Ordered at hord
  rw [f.flat_fill] at hord
  obtain ⟨hpre, hrest, -⟩ := List.pairwise_append.1 hord
  have hpost := (List.pairwise_append.1 hrest).2.1
  constructor
  · intro x hx
    rcases mem_weavePre (by simpa using f.lenL) hpre hx with hmem | ⟨y, hy, hxy⟩
    · obtain ⟨a, ha, rfl⟩ := List.mem_map.1 hmem
      exact hL a ha
    · obtain ⟨a, ha, rfl⟩ := List.mem_map.1 hy
      exact Item.Low.of_below_separator hxy (hL a ha)
  · intro x hx
    rcases mem_weavePost (by simpa using f.lenR) hpost hx with hmem | ⟨y, hy, hxy⟩
    · obtain ⟨a, ha, rfl⟩ := List.mem_map.1 hmem
      exact hR a ha
    · obtain ⟨a, ha, rfl⟩ := List.mem_map.1 hy
      exact Item.High.of_separator_below hxy (hR a ha)

theorem Frame.obj_mem {d D : ℕ} (f : Frame d) (c : Ctx (d + 1) D) (t : Tree d) :
    f.obj t.pgid ∈ ((Ctx.under f c).plug t).objs := by
  rw [Ctx.objs_plug, Ctx.objs]
  simp

namespace Readable

theorem tree_pgid_ne_invalid {d : ℕ} {t : Tree d} (h : Readable env O s)
    (hO : ∀ o ∈ t.objs, o ∈ O) : t.pgid ≠ kPageInvalidId := by
  obtain ⟨v, hv⟩ := t.exists_root
  exact h.pgid_ne_invalid (hO _ hv)

/-- The next page of the descent is the root of the subtree in the hole. -/
theorem downPage {d D : ℕ} (c : Ctx d D) (t : Tree d) (h : Readable env O s)
    (hroot : s.rootPgid = (c.plug t).pgid)
    (hO : ∀ o ∈ (c.plug t).objs, o ∈ O) (status : Status) :
    downPage ⟨c.stack, status⟩ s = (.ok (some t.pgid), s) := by
  cases c with
  | top =>
    have hne := h.tree_pgid_ne_invalid hO
    have hroot : s.rootPgid = t.pgid := hroot
    rw [← show t.pgid = (Ctx.top.plug t).pgid from rfl] at hne
    unfold BTreeIterator.downPage
    simp only [Ctx.stack]
    rw [Exec.read_bind, hroot, if_neg hne]
    rfl
  | under f c =>
    have hm := hO _ (f.obj_mem c t)
    obtain ⟨n, hrep, hget, -⟩ := h.read hm
    have hleaf : n.isLeaf = false := hrep.isLeaf_eq
    have hchild := h.getLeftChild hm (i := f.esL.length) (c := t.pgid) (by
      rw [List.getElem?_append_right (by simp [f.lenL])]
      simp [f.lenL])
    unfold BTreeIterator.downPage
    simp only [Ctx.stack]
    rw [Exec.bind_of_ok hget, hleaf]
    simp only [Bool.false_eq_true, if_false]
    rw [Exec.bind_of_ok hchild]
    rfl

/-- At a leaf the descent ends. -/
theorem down_leaf_end {es : List Entry} {pgid txid : Nat} (h : Readable env O s)
    (hm : Obj.node pgid (.leaf txid es) ∈ O) (i : Nat) (stack : List (Nat × Nat))
    (status : Status) : down env ⟨(pgid, i) :: stack, status⟩ key s =
      (.ok (false, ⟨(pgid, i) :: stack, status⟩), s) := by
  obtain ⟨n, hrep, hget, -⟩ := h.read hm
  have hleaf : n.isLeaf = true := hrep.isLeaf_eq
  have hpage : BTreeIterator.downPage ⟨(pgid, i) :: stack, status⟩ s = (.ok none, s) := by
    unfold BTreeIterator.downPage
    simp only
    rw [Exec.bind_of_ok hget, hleaf, if_pos rfl]
    rfl
  unfold down
  rw [Exec.bind_of_ok hpage]
  rfl

theorem push_ok {stack : List (Nat × Nat)} (status : Status) (v : Nat × Nat) (s : TxState)
    (h : stack.length < kStackSize) :
    push ⟨stack, status⟩ v s = (.ok ⟨v :: stack, status⟩, s) := by
  unfold push assert
  rw [Exec.require_bind h]
  rfl

/-- One step of the descent into a branch: to the child whose keys surround the key. -/
theorem down_branch (key : Bytes) {d D : ℕ} (c : Ctx (d + 1) D) (t : Tree (d + 1))
    (h : Readable env O s)
    (hroot : s.rootPgid = (c.plug t).pgid) (hO : ∀ o ∈ (c.plug t).objs, o ∈ O)
    (hord : (c.plug t).Ordered env.comparator) (hdepth : D < kStackSize)
    (status : Status) : ∃ (f : Frame d) (k : Tree d) (status' : Status), t = f.fill k ∧
      (∀ a ∈ f.esL, env.comparator key a.key ≠ .lt) ∧
      (∀ a ∈ f.esR, env.comparator key a.key = .lt) ∧
      down env ⟨c.stack, status⟩ key s = (.ok (true, ⟨(Ctx.under f c).stack, status'⟩), s) := by
  have := h.ok.trans
  have := h.ok.lawfulEq
  obtain ⟨pgid, txid, es, kids, len, rfl⟩ := t.exists_branch
  have hm : Obj.node pgid (.branch txid es (kids.map Tree.pgid)) ∈ O :=
    hO _ (c.mem_objs_plug (Multiset.mem_cons_self _ _))
  have hpage := h.downPage c _ hroot hO status
  obtain ⟨n, hrep, hget, -⟩ := h.read hm
  have hcount : n.count = es.length := hrep.count_eq
  have hbranch : n.isBranch = true := hrep.isBranch_eq
  have hleaf : n.isLeaf = false := hrep.isLeaf_eq
  have hsorted : KeysSorted env.comparator es := keysSorted_of_branch c hord
  have hstack : c.stack.length < kStackSize := by
    have := c.length_stack
    omega
  by_cases hempty : es = []
  · -- without keys there is only the tail child
    subst hempty
    obtain ⟨f, k, hfill, h1, -, h3, h4⟩ := Tree.branch_eq_fill pgid txid [] [] kids len
    refine ⟨f, k, .kNe, hfill, by simp [h3], by simp [h4], ?_⟩
    have hzero : ¬ n.count > 0 := by simp [hcount]
    unfold down
    rw [Exec.bind_of_ok hpage]
    simp only [Tree.pgid_branch]
    rw [Exec.bind_of_ok hget, if_neg hzero, Exec.bind_of_ok (push_ok _ _ s hstack)]
    simp only [Ctx.stack, h1, h3]
    rfl
  have hpos : n.count > 0 := by
    rw [hcount]
    exact List.length_pos_iff.2 hempty
  obtain ⟨A, hA, hcases⟩ := h.lowerBound hm hsorted key
  have hA' : ∀ a ∈ A, env.comparator key a.key ≠ .lt := fun a ha => Compare.not_lt_of_lt (hA a ha)
  rcases hcases with ⟨e, B, hes, hkey, hB, hrun⟩ | ⟨B, hes, hB, hrun⟩
  · -- the key is a separator: the records equal to it are to its right
    obtain rfl : es = (A ++ [e]) ++ B := by simpa using hes
    obtain ⟨f, k, hfill, h1, -, h3, h4⟩ := Tree.branch_eq_fill pgid txid (A ++ [e]) B kids len
    refine ⟨f, k, .kEq, hfill, ?_, ?_, ?_⟩
    · rw [h3]
      intro a ha
      rcases List.mem_append.1 ha with ha | ha
      · exact hA' a ha
      · rw [List.mem_singleton.1 ha, hkey]
        exact Compare.irrefl key
    · rw [h4]
      exact hB
    · unfold down
      rw [Exec.bind_of_ok hpage]
      simp only [Tree.pgid_branch]
      rw [Exec.bind_of_ok hget, if_pos hpos, Exec.bind_of_ok hrun]
      simp only [hbranch, Bool.and_self, if_true]
      rw [Exec.bind_of_ok (push_ok _ _ s hstack)]
      simp only [Ctx.stack, h1, h3, List.length_append, List.length_singleton]
      rfl
  · obtain rfl : es = A ++ B := hes
    obtain ⟨f, k, hfill, h1, -, h3, h4⟩ := Tree.branch_eq_fill pgid txid A B kids len
    refine ⟨f, k, .kNe, hfill, ?_, ?_, ?_⟩
    · rw [h3]
      exact hA'
    · rw [h4]
      exact hB
    · unfold down
      rw [Exec.bind_of_ok hpage]
      simp only [Tree.pgid_branch]
      rw [Exec.bind_of_ok hget, if_pos hpos, Exec.bind_of_ok hrun]
      simp only [hleaf, Bool.false_and, Bool.false_eq_true, and_false, if_false]
      rw [Exec.bind_of_ok (push_ok _ _ s hstack)]
      simp only [Ctx.stack, h1, h3]
      rfl

/-- The last step of the descent, into a leaf. -/
theorem down_leaf (key : Bytes) {D : ℕ} (c : Ctx 0 D) (pgid txid : Nat) (es : List Entry)
    (h : Readable env O s) (hroot : s.rootPgid = (c.plug (.leaf pgid txid es)).pgid)
    (hO : ∀ o ∈ (c.plug (.leaf pgid txid es)).objs, o ∈ O)
    (hord : (c.plug (.leaf pgid txid es)).Ordered env.comparator) (hdepth : D < kStackSize)
    (status : Status) : ∃ A hit B, es = A ++ (Option.toList hit ++ B) ∧
      (∀ a ∈ A, env.comparator a.key key = .lt) ∧ (∀ a ∈ B, env.comparator key a.key = .lt) ∧
      (∀ e ∈ hit, e.key = key) ∧
      down env ⟨c.stack, status⟩ key s =
        (.ok (true, ⟨(pgid, A.length) :: c.stack, statusAt A hit B⟩), s) := by
  have := h.ok.trans
  have hm : Obj.node pgid (.leaf txid es) ∈ O :=
    hO _ (c.mem_objs_plug (Multiset.mem_singleton_self _))
  have hpage := h.downPage c _ hroot hO status
  obtain ⟨n, hrep, hget, -⟩ := h.read hm
  have hcount : n.count = es.length := hrep.count_eq
  have hbranch : n.isBranch = false := hrep.isBranch_eq
  have hstack : c.stack.length < kStackSize := by
    have := c.length_stack
    omega
  -- Only the empty root leaf has no record, and there `LowerBound` is not asked.
  by_cases hpos : n.count > 0
  · obtain ⟨A, hA, hcases⟩ := h.lowerBound hm (keysSorted_of_leaf c hord) key
    rcases hcases with ⟨e, B, hes, hkey, hB, hrun⟩ | ⟨B, hes, hB, hrun⟩
    · refine ⟨A, some e, B, by simpa using hes, hA, hB, by simpa using hkey, ?_⟩
      unfold down
      rw [Exec.bind_of_ok hpage]
      simp only [Tree.pgid_leaf]
      rw [Exec.bind_of_ok hget, if_pos hpos, Exec.bind_of_ok hrun]
      simp only [hbranch, Bool.and_false, Bool.false_eq_true, if_false, if_true]
      rw [Exec.bind_of_ok (push_ok _ _ s hstack)]
      rfl
    · have hlength : es.length = A.length + B.length := by
        rw [← List.length_append]
        exact congrArg List.length hes
      -- Behind the last record the status is `kInvalid`, in front of another one it is `kNe`.
      have hstatus : (if A.length = n.count ∧ n.isLeaf = true then Status.kInvalid else .kNe) =
          statusAt A none B := by
        have hleaf : n.isLeaf = true := hrep.isLeaf_eq
        have hiff : (A.length = n.count ∧ n.isLeaf = true) ↔ A ≠ [] ∧ B = [] := by
          rw [← List.length_pos_iff, ← List.length_eq_zero_iff]
          constructor
          · rintro ⟨h1, -⟩
            omega
          · rintro ⟨-, h2⟩
            exact ⟨by omega, hleaf⟩
        unfold statusAt
        simp only [Option.isSome_none, Bool.false_eq_true, if_false, hiff]
      refine ⟨A, none, B, by simpa using hes, hA, hB, by simp, ?_⟩
      unfold down
      rw [Exec.bind_of_ok hpage]
      simp only [Tree.pgid_leaf]
      rw [Exec.bind_of_ok hget, if_pos hpos, Exec.bind_of_ok hrun]
      simp only [Bool.false_and, Bool.false_eq_true, if_false]
      rw [hstatus, Exec.bind_of_ok (push_ok _ _ s hstack)]
      rfl
  · obtain rfl : es = [] := List.length_eq_zero_iff.1 (by omega)
    refine ⟨[], none, [], rfl, by simp, by simp, by simp, ?_⟩
    unfold down
    rw [Exec.bind_of_ok hpage]
    simp only [Tree.pgid_leaf]
    rw [Exec.bind_of_ok hget, if_neg hpos, Exec.bind_of_ok (push_ok _ _ s hstack)]
    rfl

/-- The descent from a subtree whose surroundings are on their sides of the key. -/
theorem descend {d D : ℕ} (t : Tree d) (c : Ctx d D) (fuel : Nat) (status : Status)
    (h : Readable env O s)
    (hroot : s.rootPgid = (c.plug t).pgid) (hO : ∀ o ∈ (c.plug t).objs, o ∈ O)
    (hord : (c.plug t).Ordered env.comparator)
    (hlow : ∀ x ∈ c.before, x.Low env.comparator key)
    (hhigh : ∀ x ∈ c.after, x.High env.comparator key) (hdepth : D < kStackSize)
    (hfuel : d + 2 ≤ fuel) : ∃ p : Place D, p.At env.comparator key (c.plug t) ∧
      BTreeIterator.descend env key fuel ⟨c.stack, status⟩ s = (.ok ⟨p.stack, p.status⟩, s) := by
  have := h.ok.trans
  -- On the height. A leaf takes two turns: the second one finds nowhere to descend to.
  induction d generalizing fuel status with
  | zero =>
    obtain ⟨pgid, txid, es, rfl⟩ := t.exists_leaf
    have hm : Obj.node pgid (.leaf txid es) ∈ O :=
      hO _ (c.mem_objs_plug (Multiset.mem_singleton_self _))
    obtain ⟨A, hit, B, rfl, hA, hB, hhit, hdown⟩ :=
      h.down_leaf key c pgid txid es hroot hO hord hdepth status
    refine ⟨⟨c, pgid, txid, A, hit, B⟩, ⟨rfl, fun x hx => ?_, fun x hx => ?_, hhit⟩, ?_⟩
    · rcases List.mem_append.1 hx with hx | hx
      · exact hlow x hx
      · obtain ⟨a, ha, rfl⟩ := List.mem_map.1 hx
        exact hA a ha
    · rcases List.mem_append.1 hx with hx | hx
      · obtain ⟨a, ha, rfl⟩ := List.mem_map.1 hx
        exact hB a ha
      · exact hhigh x hx
    · obtain ⟨fuel, rfl⟩ := Nat.exists_eq_add_of_le hfuel
      rw [show 0 + 2 + fuel = fuel + 1 + 1 by omega]
      unfold BTreeIterator.descend
      rw [Exec.bind_of_ok hdown]
      simp only [if_true]
      unfold BTreeIterator.descend
      rw [Exec.bind_of_ok (h.down_leaf_end hm _ _ _)]
      rfl
  | succ d ih =>
    obtain ⟨f, k, status', rfl, hL, hR, hdown⟩ :=
      h.down_branch key c t hroot hO hord hdepth status
    obtain ⟨fuel, rfl⟩ := Nat.exists_eq_add_of_le hfuel
    have hord' : (f.fill k).Ordered env.comparator := by
      have hflat := hord
      unfold Tree.Ordered at hflat
      rw [Ctx.flat_plug] at hflat
      exact (List.pairwise_append.1 (List.pairwise_append.1 hflat).2.1).1
    -- What lies beside the child is on its side of the key, by the separators around it.
    obtain ⟨hbefore, hafter⟩ := f.low_high k hord' hL hR
    obtain ⟨p, hp, hrun⟩ := ih k (.under f c) (d + 2 + fuel) status' hroot hO hord
      (fun x hx => (List.mem_append.1 hx).elim (hlow x) (hbefore x))
      (fun x hx => (List.mem_append.1 hx).elim (hafter x) (hhigh x)) (by omega)
    refine ⟨p, hp, ?_⟩
    rw [show d + 1 + 2 + fuel = d + 2 + fuel + 1 by omega]
    unfold BTreeIterator.descend
    rw [Exec.bind_of_ok hdown]
    exact hrun

/-- **`BTree::LowerBound`.** -/
theorem treeLowerBound {D : ℕ} {t : Tree D} (h : Readable env O s) (hroot : s.rootPgid = t.pgid)
    (hO : ∀ o ∈ t.objs, o ∈ O) (hord : t.Ordered env.comparator) (hdepth : D < kStackSize)
    (key : Bytes) : ∃ p : Place D, p.At env.comparator key t ∧
      BTree.lowerBound env key s = (.ok ⟨p.stack, p.status⟩, s) :=
  h.descend t .top (kStackSize + 1) .kInvalid hroot hO hord (fun x hx => absurd hx List.not_mem_nil)
    (fun x hx => absurd hx List.not_mem_nil) hdepth (by omega)

end Readable

end Descent

/-! ## The depth of a tree -/

section Depth

variable {Γ : Scope} {b r : ℕ} {O : Multiset Obj} {s : TxState}

/-- Every branch has a key. -/
def Tree.Keyed : {d : ℕ} → Tree d → Prop
  | 0, _ => True
  | d + 1, t => BranchNodeT.entries t ≠ [] ∧ ∀ k ∈ BranchNodeT.kids t, Keyed (d := d) k

@[simp] theorem Tree.keyed_branch {d : ℕ} (p txid : Nat) (es : List Entry) (kids : List (Tree d))
    (len : kids.length = es.length + 1) :
    (Tree.branch p txid es kids len).Keyed ↔ es ≠ [] ∧ ∀ k ∈ kids, k.Keyed := Iff.rfl

theorem Tree.Full.keyed {d : ℕ} {t : Tree d} (h : t.Full) : t.Keyed := by
  induction d with
  | zero => trivial
  | succ d ih => exact ⟨h.1, fun k hk => ih (h.2 k hk)⟩

theorem Tree.RootFull.keyed {d : ℕ} {t : Tree d} (h : t.RootFull) : t.Keyed := by
  cases d with
  | zero => trivial
  | succ d => exact Tree.Full.keyed h

/-- A tree has at least as many nodes as a binary tree of its depth has leaves. -/
theorem Tree.two_pow_le_card {d : ℕ} (t : Tree d) (h : t.Keyed) : 2 ^ d ≤ t.objs.card := by
  induction d with
  | zero =>
    obtain ⟨p, txid, es, rfl⟩ := t.exists_leaf
    simp
  | succ d ih =>
    obtain ⟨p, txid, es, kids, len, rfl⟩ := t.exists_branch
    obtain ⟨hne, hkids⟩ := (Tree.keyed_branch p txid es kids len).1 h
    have hsum : ∀ ks : List (Tree d), (∀ k ∈ ks, k.Keyed) →
        ks.length * 2 ^ d ≤ (ks.map Tree.objs).sum.card := by
      intro ks
      induction ks with
      | nil => simp
      | cons k ks ihk =>
        intro hk
        have h1 := ih k (hk k List.mem_cons_self)
        have h2 := ihk fun k' hk' => hk k' (List.mem_cons_of_mem _ hk')
        rw [List.map_cons, List.sum_cons, Multiset.card_add, List.length_cons, Nat.succ_mul]
        omega
    have h1 := hsum kids hkids
    have h2 : 2 ≤ kids.length := by
      have := List.length_pos_iff.2 hne
      omega
    have h3 : 2 * 2 ^ d ≤ kids.length * 2 ^ d := Nat.mul_le_mul_right _ h2
    rw [Tree.objs_branch, Multiset.card_cons, pow_succ]
    omega

theorem Tree.node_of_mem {d : ℕ} (t : Tree d) {o : Obj} (h : o ∈ t.objs) :
    ∃ q v, o = .node q v := by
  induction d with
  | zero =>
    obtain ⟨p, txid, es, rfl⟩ := t.exists_leaf
    exact ⟨p, _, Multiset.mem_singleton.1 h⟩
  | succ d ih =>
    obtain ⟨p, txid, es, kids, len, rfl⟩ := t.exists_branch
    rcases Multiset.mem_cons.1 h with rfl | h
    · exact ⟨p, _, rfl⟩
    · obtain ⟨k, -, hk⟩ := Tree.mem_sum_objs.1 h
      exact ih k hk

namespace Own

/-- There are not more nodes than pages. -/
theorem card_le {N : Multiset Obj} (h : Own Γ b r (N + O) s) (hN : ∀ o ∈ N, ∃ q v, o = .node q v) :
    N.card ≤ s.metaStruct.pageCount := by
  have key : ∀ M : Multiset Obj, M ≤ N →
      M.card ≤ ∑ p ∈ Finset.range s.metaStruct.pageCount, objsCount Γ.P M p := by
    intro M
    induction M using Multiset.induction_on with
    | empty => simp
    | cons o M ih =>
      intro hle
      obtain ⟨q, v, rfl⟩ := hN o (Multiset.mem_of_le hle (Multiset.mem_cons_self _ _))
      have h1 := ih ((Multiset.le_cons_self _ _).trans hle)
      obtain ⟨N', hN'⟩ := Multiset.exists_cons_of_mem
        (Multiset.mem_of_le hle (Multiset.mem_cons_self _ _))
      have hq : q < s.metaStruct.pageCount := by
        rw [hN', Multiset.cons_add] at h
        exact (h.page_lt (node_pos q v)).2
      have h2 : objCount Γ.P (.node q v) q ≤
          ∑ p ∈ Finset.range s.metaStruct.pageCount, objCount Γ.P (.node q v) p :=
        Finset.single_le_sum (f := fun p => objCount Γ.P (.node q v) p) (fun _ _ => Nat.zero_le _)
          (Finset.mem_range.2 hq)
      have h3 : 0 < objCount Γ.P (.node q v) q := node_pos q v
      simp only [objsCount_cons, Finset.sum_add_distrib, Multiset.card_cons]
      omega
  refine (key N (le_refl _)).trans ?_
  calc ∑ p ∈ Finset.range s.metaStruct.pageCount, objsCount Γ.P N p
      ≤ ∑ _p ∈ Finset.range s.metaStruct.pageCount, 1 := by
        refine Finset.sum_le_sum fun p _ => ?_
        have := h.count p
        rw [objsCount_add] at this
        split_ifs at this <;> omega
    _ = s.metaStruct.pageCount := by simp

/-- The stack of an iterator holds every path of a tree that fits into the file. -/
theorem depth_lt {D : ℕ} {t : Tree D} (h : Own Γ b r (t.objs + O) s) (hfull : t.RootFull) :
    D < kStackSize := by
  cases D with
  | zero => decide
  | succ D =>
    have h1 := t.two_pow_le_card hfull.keyed
    have h2 := h.card_le fun o ho => t.node_of_mem ho
    have h3 := h.room
    have h4 : 2 ^ (D + 1) ≤ 2 ^ 31 := by
      unfold kPageMaxCount at h3
      omega
    have h5 := (Nat.pow_le_pow_iff_right (by omega : 1 < 2)).1 h4
    unfold kStackSize
    omega

/-! ## Lookup -/

/-- `BTree::LowerBound` on the tree of a write transaction. -/
theorem treeLowerBound {D : ℕ} {t : Tree D} (h : Own Γ b t.pgid (t.objs + O) s)
    (hord : t.Ordered Γ.env.comparator) (hfull : t.RootFull) (key : Bytes) :
    ∃ (p : Place D) (status : Status), p.At Γ.env.comparator key t ∧
      (status = .kEq ↔ p.hit.isSome) ∧
      BTree.lowerBound Γ.env key s = (.ok ⟨p.stack, status⟩, s) := by
  have hdepth := h.depth_lt hfull
  obtain ⟨p, hp, hlower⟩ :=
    h.readable.treeLowerBound h.root (fun o ho => Multiset.mem_add.2 (.inl ho)) hord hdepth key
  exact ⟨p, p.status, hp, p.status_eq_kEq, hlower⟩

end Own

end Depth

end AtomKV
