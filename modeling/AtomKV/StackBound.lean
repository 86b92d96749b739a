import AtomKV.IteratorEquality
import AtomKV.Rebalancing

/-!
# The stack of an iterator never overflows

`detail::Stack` has 32 entries, and `push_back` asserts that one of them is left. The entries of an
iterator are nodes of consecutive levels from the root down (`Way`), each push adds the next level,
and a tree whose branches have keys has no more than 31 levels: with a level more it would need more
pages than there are ids. Neither the order of the keys nor the fill of the nodes matters, and
leaves may be empty.
-/

set_option autoImplicit false

namespace AtomKV

/-! ## The tree -/

/-- The root page of the state is the root of the tree `t`: its nodes are in pages of their own, and
its branches have keys. -/
structure Stands (env : Env) (t : Shape) (s : TxState) : Prop where
  root : s.rootPgid = t.pgid
  resident : Resident env t.objs s
  once : ∀ x, nodeCount t.objs x ≤ 1
  keyed : t.Keyed

theorem Shows.stands {env : Env} {t : Shape} {s : TxState} (h : Shows env t s) : Stands env t s :=
  ⟨h.root, h.readable.toResident, h.once, h.keyed⟩

theorem Stands.depth_lt {env : Env} {D : ℕ} {t : Tree D} {s : TxState}
    (h : Stands env (.tree t) s) : D < kStackSize :=
  h.resident.depth_lt h.once h.keyed

/-- A node of `t` with all that is below it. -/
def Tree.Sub {d D : ℕ} (u : Tree d) (t : Tree D) : Prop := ∃ c : Ctx d D, c.plug u = t

theorem Ctx.keyed_of_plug {d D : ℕ} (c : Ctx d D) {u : Tree d} (h : (c.plug u).Keyed) :
    u.Keyed := by
  induction c with
  | top => exact h
  | under f c ih =>
    have hfill : (f.fill u).Keyed := ih h
    exact ((Tree.keyed_branch _ _ _ _ _).1 hfill).2 u (List.mem_append_right _ List.mem_cons_self)

namespace Tree.Sub

variable {env : Env} {s : TxState} {d D : ℕ} {t : Tree D}

theorem refl (t : Tree D) : t.Sub t := ⟨.top, rfl⟩

theorem mem {u : Tree d} (h : u.Sub t) : Obj.node u.pgid u.view ∈ t.objs := by
  obtain ⟨c, rfl⟩ := h
  refine c.mem_objs_plug ?_
  rw [u.objs_eq]
  exact Multiset.mem_cons_self _ _

theorem keyed {u : Tree d} (h : u.Sub t) (ht : t.Keyed) : u.Keyed := by
  obtain ⟨c, rfl⟩ := h
  exact c.keyed_of_plug ht

/-- A child, with the number of children to its left. -/
theorem kid {u : Tree (d + 1)} (h : u.Sub t) {i : Nat} (hi : i ≤ u.entries.length) :
    ∃ k : Tree d, k.Sub t ∧ ((BranchNodeT.kids u).map Tree.pgid)[i]? = some k.pgid := by
  obtain ⟨c, rfl⟩ := h
  obtain ⟨pgid, txid, es, kids, len, rfl⟩ := u.exists_branch
  obtain ⟨esL, esR, hes, hlen⟩ := ListAt.exists_split_le (l := es) (i := i) hi
  subst hes
  obtain ⟨f, k, hfill, h1, h2, h3, h4⟩ := Tree.branch_eq_fill pgid txid esL esR kids len
  refine ⟨k, ⟨.under f c, congrArg c.plug hfill.symm⟩, ?_⟩
  have hkids : kids = f.ksL ++ k :: f.ksR := congrArg BranchNodeT.kids hfill
  have hi' : f.ksL.length = i := by rw [f.lenL, h3, hlen]
  show (kids.map Tree.pgid)[i]? = some k.pgid
  rw [hkids, List.map_append, List.getElem?_append_right (by rw [List.length_map, hi']),
    List.length_map, hi', Nat.sub_self]
  rfl

end Tree.Sub

/-! ## The stack -/

/-- The entries of a stack are nodes of `t`, one on each level from the root down to level
`d`, with slots of these nodes; the levels are counted from the leaves, and an empty stack is
above the root. -/
inductive Way {D : ℕ} (t : Tree D) : ℕ → List (Nat × Nat) → Prop where
  | off : Way t (D + 1) []
  | on {d : ℕ} {stack : List (Nat × Nat)} (u : Tree d) (hsub : u.Sub t) {slotId : Nat}
      (hslot : slotId ≤ u.entries.length) (hrest : Way t (d + 1) stack) :
        Way t d ((u.pgid, slotId) :: stack)

/-- A stack is as long as the levels it covers. -/
theorem Way.length_eq {d D : ℕ} {t : Tree D} {stack : List (Nat × Nat)} (h : Way t d stack) :
    stack.length + d = D + 1 := by
  induction h with
  | off => exact Nat.zero_add _
  | on u hsub hslot hrest ih =>
    rw [List.length_cons]
    omega

/-- The call returns an iterator that stays on its way. -/
def BTreeIterator.StaysIn {D : ℕ} (t : Tree D) (x : TxM BTreeIterator) (s : TxState) : Prop :=
  ∃ iter d, x s = (.ok iter, s) ∧ Way t d iter.stack

section Calls

variable {env : Env} {s : TxState} {d D : ℕ} {t : Tree D} {stack : List (Nat × Nat)}

open BTreeIterator

namespace Stands

/-- There is room for one more level. -/
theorem push (h : Stands env (.tree t) s) (hway : Way t (d + 1) stack) (status : Status)
    (v : Nat × Nat) : BTreeIterator.push ⟨stack, status⟩ v s = (.ok ⟨v :: stack, status⟩, s) := by
  have hlen := hway.length_eq
  have hdepth := h.depth_lt
  exact Readable.push_ok status v s (by omega)

/-- What is read of a node on the way. -/
theorem read (h : Stands env (.tree t) s) {u : Tree d} (hsub : u.Sub t) :
    ∃ n, Pager.getNode u.pgid s = (.ok n, s) ∧ n.count = u.entries.length ∧
      (n.isLeaf = true ↔ d = 0) ∧ (n.isBranch = true → d ≠ 0) := by
  obtain ⟨n, hrep, hget, -⟩ := h.resident.read hsub.mem
  have hcount : n.count = u.entries.length := by rw [hrep.count_eq, u.entries_eq]
  cases d with
  | zero =>
    have hbranch : n.isBranch = false := hrep.isBranch_eq
    exact ⟨n, hget, hcount, iff_of_true hrep.isLeaf_eq rfl, by simp [hbranch]⟩
  | succ d =>
    have hleaf : n.isLeaf = false := hrep.isLeaf_eq
    exact ⟨n, hget, hcount, iff_of_false (by simp [hleaf]) (Nat.succ_ne_zero d),
      fun _ => Nat.succ_ne_zero d⟩

/-- The child at a slot of a branch on the way. -/
theorem getLeftChild (h : Stands env (.tree t) s) {u : Tree (d + 1)} (hsub : u.Sub t) {i : Nat}
    (hi : i ≤ u.entries.length) :
    ∃ k : Tree d, k.Sub t ∧ BranchNode.getLeftChild u.pgid i s = (.ok k.pgid, s) := by
  obtain ⟨k, hk, hget⟩ := hsub.kid hi
  exact ⟨k, hk, h.resident.getLeftChild hsub.mem hget⟩

theorem getTailChild (h : Stands env (.tree t) s) {u : Tree (d + 1)} (hsub : u.Sub t) :
    ∃ k : Tree d, k.Sub t ∧ BranchNode.getTailChild u.pgid s = (.ok k.pgid, s) := by
  obtain ⟨k, hk, hget⟩ := hsub.kid (le_refl _)
  obtain ⟨pgid, txid, es, kids, len, rfl⟩ := u.exists_branch
  obtain ⟨ks, x, hkids⟩ : ∃ ks x, kids.map Tree.pgid = ks ++ [x] := by
    rcases List.eq_nil_or_concat' (kids.map Tree.pgid) with hnil | hlast
    · rw [List.map_eq_nil_iff.1 hnil] at len
      cases len
    · exact hlast
  have hlen : ks.length = es.length := by
    have := congrArg List.length hkids
    rw [List.length_map, len, List.length_append] at this
    exact (Nat.succ.inj this).symm
  have hx : x = k.pgid := by
    have hget' : (kids.map Tree.pgid)[es.length]? = some k.pgid := hget
    rw [hkids, ← hlen, List.getElem?_append_right (le_refl _), Nat.sub_self] at hget'
    exact Option.some.inj hget'
  have hm : Obj.node pgid (.branch txid es (ks ++ [x])) ∈ t.objs := hkids ▸ hsub.mem
  exact ⟨k, hk, hx ▸ h.resident.getTailChild hm⟩

/-! ### Down to a leaf -/

/-- `First` from a subtree below the stack. -/
theorem firstLoop (h : Stands env (.tree t) s) (u : Tree d) (hsub : u.Sub t)
    (hway : Way t (d + 1) stack) (fuel : Nat) (hfuel : d < fuel) (status : Status) :
      StaysIn t (BTreeIterator.firstLoop fuel ⟨stack, status⟩ u.pgid) s := by
  induction d generalizing stack fuel with
  | zero =>
    obtain ⟨fuel, rfl⟩ := Nat.exists_eq_add_of_lt hfuel
    obtain ⟨n, hget, hcount, hleaf, -⟩ := h.read hsub
    have hrun : BTreeIterator.firstLoop (0 + fuel + 1) ⟨stack, status⟩ u.pgid s =
        (if n.count = 0 then pure ⟨stack, status⟩ else BTreeIterator.push ⟨stack, status⟩
          (u.pgid, 0)) s := by
      unfold BTreeIterator.firstLoop
      rw [Exec.bind_of_ok hget, if_pos (hleaf.2 rfl)]
    by_cases hempty : n.count = 0
    · rw [if_pos hempty] at hrun
      exact ⟨⟨stack, status⟩, 1, hrun, hway⟩
    · rw [if_neg hempty, h.push hway] at hrun
      exact ⟨⟨(u.pgid, 0) :: stack, status⟩, 0, hrun, .on u hsub (Nat.zero_le _) hway⟩
  | succ d ih =>
    obtain ⟨fuel, rfl⟩ := Nat.exists_eq_add_of_lt hfuel
    obtain ⟨n, hget, hcount, hleaf, -⟩ := h.read hsub
    have hbranch : ¬ n.isLeaf = true := fun htrue => Nat.succ_ne_zero d (hleaf.1 htrue)
    have hpos : 0 < n.count := by
      rw [hcount]
      exact List.length_pos_iff.2 (hsub.keyed h.keyed).1
    obtain ⟨k, hk, hchild⟩ := h.getLeftChild hsub (Nat.zero_le _)
    obtain ⟨iter, d', hrun, hiter⟩ :=
      ih k hk (.on u hsub (Nat.zero_le _) hway) (d + 1 + fuel) (by omega)
    refine ⟨iter, d', ?_, hiter⟩
    unfold BTreeIterator.firstLoop assert
    rw [Exec.bind_of_ok hget, if_neg hbranch, Exec.bind_of_ok (h.push hway status _),
      Exec.require_bind hpos, Exec.bind_of_ok hchild, hrun]

/-- `Last` from a subtree below the stack. -/
theorem lastLoop (h : Stands env (.tree t) s) (u : Tree d) (hsub : u.Sub t)
    (hway : Way t (d + 1) stack) (fuel : Nat) (hfuel : d < fuel) (status : Status) :
      StaysIn t (BTreeIterator.lastLoop fuel ⟨stack, status⟩ u.pgid) s := by
  induction d generalizing stack fuel with
  | zero =>
    obtain ⟨fuel, rfl⟩ := Nat.exists_eq_add_of_lt hfuel
    obtain ⟨n, hget, hcount, hleaf, -⟩ := h.read hsub
    have hrun : BTreeIterator.lastLoop (0 + fuel + 1) ⟨stack, status⟩ u.pgid s =
        (if n.count = 0 then pure ⟨stack, status⟩ else BTreeIterator.push ⟨stack, status⟩
          (u.pgid, n.count - 1)) s := by
      unfold BTreeIterator.lastLoop
      rw [Exec.bind_of_ok hget, if_pos (hleaf.2 rfl)]
    by_cases hempty : n.count = 0
    · rw [if_pos hempty] at hrun
      exact ⟨⟨stack, status⟩, 1, hrun, hway⟩
    · rw [if_neg hempty, h.push hway] at hrun
      exact ⟨⟨(u.pgid, n.count - 1) :: stack, status⟩, 0, hrun, .on u hsub (by omega) hway⟩
  | succ d ih =>
    obtain ⟨fuel, rfl⟩ := Nat.exists_eq_add_of_lt hfuel
    obtain ⟨n, hget, hcount, hleaf, -⟩ := h.read hsub
    have hbranch : ¬ n.isLeaf = true := fun htrue => Nat.succ_ne_zero d (hleaf.1 htrue)
    have hpos : 0 < n.count := by
      rw [hcount]
      exact List.length_pos_iff.2 (hsub.keyed h.keyed).1
    have hslot : n.count - 1 ≤ u.entries.length := by omega
    obtain ⟨k, hk, hchild⟩ := h.getLeftChild hsub hslot
    obtain ⟨iter, d', hrun, hiter⟩ := ih k hk (.on u hsub hslot hway) (d + 1 + fuel) (by omega)
    refine ⟨iter, d', ?_, hiter⟩
    unfold BTreeIterator.lastLoop assert
    rw [Exec.bind_of_ok hget, if_neg hbranch, Exec.bind_of_ok (h.push hway status _),
      Exec.require_bind hpos, Exec.bind_of_ok hchild, hrun]

theorem first (h : Stands env (.tree t) s) (u : Tree d) (hsub : u.Sub t)
    (hway : Way t (d + 1) stack) (status : Status) :
    StaysIn t (BTreeIterator.first ⟨stack, status⟩ u.pgid) s := by
  have hdepth := h.depth_lt
  have hlen := hway.length_eq
  unfold BTreeIterator.first
  rw [if_neg (h.resident.pgid_ne_invalid hsub.mem)]
  exact h.firstLoop u hsub hway _ (by omega) .kIter

theorem last (h : Stands env (.tree t) s) (u : Tree d) (hsub : u.Sub t) (hway : Way t (d + 1) stack)
    (status : Status) : StaysIn t (BTreeIterator.last ⟨stack, status⟩ u.pgid) s := by
  have hdepth := h.depth_lt
  have hlen := hway.length_eq
  exact h.lastLoop u hsub hway _ (by omega) .kIter

/-! ### To a neighbour -/

/-- The loop of `Next`: up to a node with something to the right, and down from there. -/
theorem nextLoop (h : Stands env (.tree t) s) (hway : Way t d stack) (status : Status) :
    StaysIn t (BTreeIterator.nextLoop status stack) s := by
  induction hway with
  | off => exact ⟨⟨[], status⟩, D + 1, rfl, .off⟩
  | @on d stack u hsub slotId hslot hrest ih =>
    obtain ⟨n, hget, hcount, hleaf, hbranch⟩ := h.read hsub
    unfold StaysIn BTreeIterator.nextLoop
    rw [Exec.bind_of_ok hget]
    -- to the next entry of the node, else to its tail child, else up
    by_cases hmore : slotId + 1 < n.count
    · have hslot' : slotId + 1 ≤ u.entries.length := by omega
      rw [if_pos hmore]
      cases d with
      | zero =>
        rw [if_pos (hleaf.2 rfl)]
        exact ⟨⟨(u.pgid, slotId + 1) :: stack, status⟩, 0, rfl, .on u hsub hslot' hrest⟩
      | succ d =>
        obtain ⟨k, hk, hchild⟩ := h.getLeftChild hsub hslot'
        rw [if_neg (fun htrue => Nat.succ_ne_zero d (hleaf.1 htrue)), Exec.bind_of_ok hchild]
        exact h.first k hk (.on u hsub hslot' hrest) status
    · rw [if_neg hmore]
      by_cases htail : n.isBranch ∧ slotId + 1 = n.count
      · rw [if_pos htail]
        cases d with
        | zero => exact absurd rfl (hbranch htail.1)
        | succ d =>
          obtain ⟨k, hk, hchild⟩ := h.getTailChild hsub
          rw [Exec.bind_of_ok hchild]
          exact h.first k hk (.on u hsub (htail.2.trans hcount).le hrest) status
      · rw [if_neg htail]
        exact ih

/-- The loop of `Prev`. -/
theorem prevLoop (h : Stands env (.tree t) s) (hway : Way t d stack) (status : Status) :
    StaysIn t (BTreeIterator.prevLoop status stack) s := by
  induction hway with
  | off => exact ⟨⟨[], status⟩, D + 1, rfl, .off⟩
  | @on d stack u hsub slotId hslot hrest ih =>
    obtain ⟨n, hget, hcount, hleaf, -⟩ := h.read hsub
    unfold StaysIn BTreeIterator.prevLoop
    rw [Exec.bind_of_ok hget]
    by_cases hpos : 0 < slotId
    · have hslot' : slotId - 1 ≤ u.entries.length := by omega
      rw [if_pos hpos]
      cases d with
      | zero =>
        simp only [if_pos (hleaf.2 rfl)]
        exact ⟨⟨(u.pgid, slotId - 1) :: stack, status⟩, 0, rfl, .on u hsub hslot' hrest⟩
      | succ d =>
        have hbranch : ¬ n.isLeaf = true := fun htrue => Nat.succ_ne_zero d (hleaf.1 htrue)
        obtain ⟨k, hk, hchild⟩ := h.getLeftChild hsub hslot'
        simp only [if_neg hbranch]
        rw [Exec.bind_of_ok hchild]
        exact h.last k hk (.on u hsub hslot' hrest) status
    · rw [if_neg hpos]
      exact ih

/-! ### To a key -/

/-- The search in a node stays inside it, whatever the order of its keys. A slot behind the last key
is not an equal one. -/
theorem lowerBoundLoop (h : Stands env (.tree t) s) {u : Tree d} (hsub : u.Sub t) (key : Bytes)
    (fuel first len : Nat) (eq : Bool) (hlen : first + len ≤ u.entries.length)
    (heq : eq = true → first + len < u.entries.length) :
    ∃ i eq', Node.lowerBoundLoop env u.pgid key fuel first len eq s = (.ok (i, eq'), s) ∧
      i ≤ u.entries.length ∧ (eq' = true → i < u.entries.length) := by
  induction fuel generalizing first len eq with
  | zero => exact ⟨first, eq, rfl, by omega, fun htrue => by have := heq htrue; omega⟩
  | succ fuel ih =>
    by_cases hzero : len = 0
    · refine ⟨first, eq, ?_, by omega, fun htrue => by have := heq htrue; omega⟩
      unfold Node.lowerBoundLoop
      rw [if_pos hzero]
      rfl
    · have hmid : first + len / 2 < u.view.entries.length := by
        rw [u.entries_eq]
        omega
      have hkey := h.resident.getKey hsub.mem (List.getElem?_eq_getElem hmid)
      unfold Node.lowerBoundLoop
      rw [if_neg hzero, Exec.bind_of_ok hkey]
      by_cases hlt : env.comparator (u.view.entries[first + len / 2]).key key = .lt
      · -- the part behind the middle ends where the whole did, and the middle is not equal
        simp only [if_pos hlt]
        refine ih _ _ _ (by omega) fun htrue => ?_
        have hold : eq = true := by simpa [hlt] using htrue
        have := heq hold
        omega
      · simp only [if_neg hlt]
        exact ih _ _ _ (by omega) fun _ => by omega

/-- One step of the descent. -/
theorem down (h : Stands env (.tree t) s) (key : Bytes) (u : Tree d) (hsub : u.Sub t)
    (hway : Way t (d + 1) stack) (status : Status)
    (hpage : downPage ⟨stack, status⟩ s = (.ok (some u.pgid), s)) :
    ∃ slotId status', down env ⟨stack, status⟩ key s =
      (.ok (true, ⟨(u.pgid, slotId) :: stack, status'⟩), s) ∧ slotId ≤ u.entries.length := by
  obtain ⟨n, hget, hcount, hleaf, -⟩ := h.read hsub
  obtain ⟨i, eq, hrun, hi, heq⟩ :=
    h.lowerBoundLoop hsub key u.entries.length 0 u.entries.length false
    (Nat.zero_add _).le (fun hfalse => by cases hfalse)
  have hsearch : Node.lowerBound env u.pgid key s = (.ok (i, eq), s) := by
    have hcountOf : Node.countOf u.pgid s = (.ok u.entries.length, s) := by
      rw [h.resident.countOf hsub.mem, u.entries_eq]
    unfold Node.lowerBound
    rw [Exec.bind_of_ok hcountOf, hrun]
  unfold BTreeIterator.down
  rw [Exec.bind_of_ok hpage]
  simp only
  rw [Exec.bind_of_ok hget]
  by_cases hpos : n.count > 0
  · rw [if_pos hpos, Exec.bind_of_ok hsearch]
    simp only
    rw [Exec.bind_of_ok (h.push hway _ _)]
    refine ⟨_, _, rfl, ?_⟩
    split
    · rename_i hinner
      have := heq (Bool.and_eq_true_iff.1 hinner).1
      omega
    · exact hi
  · rw [if_neg hpos, Exec.bind_of_ok (h.push hway _ _)]
    exact ⟨0, .kNe, rfl, Nat.zero_le _⟩

/-- The loop of `LowerBound` down to a leaf. -/
theorem descend (h : Stands env (.tree t) s) (key : Bytes) (u : Tree d) (hsub : u.Sub t)
    (hway : Way t (d + 1) stack) (status : Status)
    (hpage : downPage ⟨stack, status⟩ s = (.ok (some u.pgid), s)) (fuel : Nat) (hfuel : d < fuel) :
    StaysIn t (BTreeIterator.descend env key (fuel + 1) ⟨stack, status⟩) s := by
  induction d generalizing stack status fuel with
  | zero =>
    obtain ⟨fuel, rfl⟩ := Nat.exists_eq_add_of_lt hfuel
    obtain ⟨slotId, status', hdown, hslot⟩ := h.down key u hsub hway status hpage
    obtain ⟨n, hget, -, hleaf, -⟩ := h.read hsub
    have hstop : BTreeIterator.down env ⟨(u.pgid, slotId) :: stack, status'⟩ key s =
        (.ok (false, ⟨(u.pgid, slotId) :: stack, status'⟩), s) := by
      unfold BTreeIterator.down downPage
      simp only
      rw [bind_assoc, Exec.bind_of_ok hget, if_pos (hleaf.2 rfl)]
      rfl
    refine ⟨⟨(u.pgid, slotId) :: stack, status'⟩, 0, ?_, .on u hsub hslot hway⟩
    unfold BTreeIterator.descend
    rw [Exec.bind_of_ok hdown]
    simp only [if_true]
    unfold BTreeIterator.descend
    rw [Exec.bind_of_ok hstop]
    rfl
  | succ d ih =>
    obtain ⟨fuel, rfl⟩ := Nat.exists_eq_add_of_lt hfuel
    obtain ⟨slotId, status', hdown, hslot⟩ := h.down key u hsub hway status hpage
    obtain ⟨n, hget, -, hleaf, -⟩ := h.read hsub
    obtain ⟨k, hk, hchild⟩ := h.getLeftChild hsub hslot
    have hnext : downPage ⟨(u.pgid, slotId) :: stack, status'⟩ s = (.ok (some k.pgid), s) := by
      unfold downPage
      simp only
      rw [Exec.bind_of_ok hget, if_neg (fun htrue => Nat.succ_ne_zero d (hleaf.1 htrue)),
        Exec.bind_of_ok hchild]
      rfl
    unfold StaysIn BTreeIterator.descend
    rw [Exec.bind_of_ok hdown]
    exact ih k hk (.on u hsub hslot hway) status' hnext (d + 1 + fuel) (by omega)

/-! ### The calls -/

theorem begin (h : Stands env (.tree t) s) : StaysIn t BTree.begin s := by
  unfold BTree.begin
  rw [StaysIn, Exec.read_bind, h.root]
  exact h.first t (.refl t) .off .kInvalid

theorem lowerBound (h : Stands env (.tree t) s) (key : Bytes) :
    StaysIn t (BTree.lowerBound env key) s := by
  have hdepth := h.depth_lt
  have hpage : downPage .init s = (.ok (some t.pgid), s) := by
    unfold downPage BTreeIterator.init
    simp only
    rw [Exec.read_bind, show s.rootPgid = t.pgid from h.root,
      if_neg (h.resident.pgid_ne_invalid (Tree.Sub.refl t).mem)]
    rfl
  exact h.descend key t (.refl t) .off .kInvalid hpage kStackSize hdepth

theorem next (h : Stands env (.tree t) s) {iter : BTreeIterator} (hway : Way t d iter.stack)
    (hne : iter.stack ≠ []) : StaysIn t iter.next s := by
  unfold BTreeIterator.next assert
  rw [StaysIn, Exec.require_bind hne]
  exact h.nextLoop hway iter.status

theorem prev (h : Stands env (.tree t) s) {iter : BTreeIterator} (hway : Way t d iter.stack) :
    StaysIn t iter.prev s := by
  by_cases hnil : iter.stack = []
  · have hoff : BTreeIterator.prev iter s = BTreeIterator.last ⟨[], iter.status⟩ t.pgid s := by
      obtain ⟨stack, status⟩ := iter
      obtain rfl : stack = [] := hnil
      rw [BTreeIterator.prev_of_off, show s.rootPgid = t.pgid from h.root]
    rw [StaysIn, hoff]
    exact h.last t (.refl t) .off iter.status
  · unfold BTreeIterator.prev
    rw [if_neg hnil]
    exact h.prevLoop hway iter.status

/-- The iterators of a tree stay on their ways. -/
theorem obtained (h : Stands env (.tree t) s) {iter : BTreeIterator}
    (hiter : BTree.Obtained env s iter) : ∃ d, Way t d iter.stack := by
  have hcall : ∀ {x : TxM BTreeIterator} {iter : BTreeIterator}, StaysIn t x s →
      x s = (.ok iter, s) → ∃ d, Way t d iter.stack := by
    rintro x iter ⟨iter', d, hrun, hway⟩ hx
    obtain rfl : iter' = iter := Except.ok.inj (Prod.mk.inj (hrun.symm.trans hx)).1
    exact ⟨d, hway⟩
  induction hiter with
  | begin hrun => exact hcall h.begin hrun
  | atEnd => exact ⟨D + 1, .off⟩
  | get key hrun =>
    obtain ⟨iter, d, hlower, hway⟩ := h.lowerBound key
    unfold BTree.get at hrun
    rw [Exec.bind_of_ok hlower] at hrun
    split at hrun
    · cases hrun
      exact ⟨D + 1, .off⟩
    · cases hrun
      exact ⟨d, hway⟩
  | lowerBound key hrun => exact hcall (h.lowerBound key) hrun
  | @next iter iter' _ hrun ih =>
    obtain ⟨d, hway⟩ := ih
    by_cases hne : iter.stack = []
    · unfold BTreeIterator.next assert at hrun
      rw [Exec.require_bind_not (fun hnot => hnot hne)] at hrun
      cases hrun
    · exact hcall (h.next hway hne) hrun
  | prev _ hrun ih =>
    obtain ⟨d, hway⟩ := ih
    exact hcall (h.prev hway) hrun

end Stands

end Calls

/-! ## Copies of the path -/

namespace BTreeIterator

variable {env : Env} {s s' : TxState}

/-- The copies take the places of the pages on the stack. -/
theorem copyPath_length {stack : List (Nat × Nat)} {lower : Option Nat}
    {res : List (Nat × Nat) × Option Nat} (h : copyPath env stack lower s = (.ok res, s')) :
      res.1.length = stack.length := by
  induction stack generalizing lower res s s' with
  | nil =>
    cases h
    rfl
  | cons x rest ih =>
    obtain ⟨pgid, slotId⟩ := x
    unfold copyPath at h
    obtain ⟨n, s₁, -, h⟩ := Exec.bind_eq_ok h
    obtain ⟨t, s₂, -, h⟩ := Exec.bind_eq_ok h
    split at h
    · obtain ⟨newPgid, s₃, -, h⟩ := Exec.bind_eq_ok h
      -- each level puts one entry back, whatever page it is on
      have hend : ∀ {s₄ : TxState}, (do
          let upper ← copyPath env rest (some newPgid)
          return ((newPgid, slotId) :: upper.1, upper.2) : TxM (List (Nat × Nat) × Option Nat)) s₄ =
            (.ok res, s') →
          res.1.length = rest.length + 1 := by
        intro s₄ hrun
        obtain ⟨res', s₅, hrest, hrun⟩ := Exec.bind_eq_ok hrun
        cases hrun
        exact congrArg Nat.succ (ih hrest)
      split at h
      · cases lower with
        | some child =>
          obtain ⟨_, s₄, -, h⟩ := Exec.bind_eq_ok h
          exact hend h
        | none => cases h
      · exact hend h
    · split at h
      · cases lower with
        | some child =>
          obtain ⟨_, s₄, -, h⟩ := Exec.bind_eq_ok h
          cases h
          rfl
        | none => cases h
      · cases h
        rfl

theorem copyAllPagesByPath_length {iter iter' : BTreeIterator}
    (h : copyAllPagesByPath env iter s = (.ok iter', s')) :
    iter'.stack.length = iter.stack.length := by
  unfold copyAllPagesByPath at h
  split at h
  · cases h
    rfl
  · obtain ⟨⟨stack, root⟩, s₁, hcopy, h⟩ := Exec.bind_eq_ok h
    cases root with
    | some root =>
      obtain ⟨_, s₂, -, h⟩ := Exec.bind_eq_ok h
      cases h
      exact copyPath_length hcopy
    | none =>
      cases h
      exact copyPath_length hcopy

end BTreeIterator

/-! ## Deletion

`Delete` pushes where a new separator does not fit into its branch: the branch, whose entry has been
popped, goes back on the stack. To say that the assertion in `Push` never fails there, it is
replaced by an arbitrary computation `full`. -/

namespace BTreeIterator

/-- `BTreeIterator::Push`, with `full` in the place of the assertion that fails on a full stack. -/
def pushOr (full : TxM BTreeIterator) (iter : BTreeIterator) (v : Nat × Nat) : TxM BTreeIterator :=
  if iter.stack.length < kStackSize then pure { iter with stack := v :: iter.stack } else full

/-- With the assertion it is `Push`. -/
theorem pushOr_assert : pushOr (Exec.raise .assertion) = push := by
  funext iter v s
  unfold pushOr push assert
  by_cases hroom : iter.stack.length < kStackSize
  · rw [if_pos hroom, Exec.require_bind hroom]
  · rw [if_neg hroom, Exec.require_bind_not hroom]
    rfl

theorem pushOr_eq {full : TxM BTreeIterator} {iter : BTreeIterator}
    (h : iter.stack.length < kStackSize) (v : Nat × Nat) : pushOr full iter v = push iter v := by
  rw [← pushOr_assert]
  unfold pushOr
  rw [if_pos h, if_pos h]

end BTreeIterator

namespace BTree

open BTreeIterator

section Full

variable {full : TxM BTreeIterator} {env : Env}

theorem reinsertWith_eq {rest : List (Nat × Nat)} (h : rest.length < kStackSize)
    (parent slotId left right : Nat) (newKey : Bytes) : reinsertWith (pushOr full) env parent slotId
      rest left right newKey = reinsertWith push env parent slotId rest left right newKey := by
  unfold reinsertWith
  rw [pushOr_eq h]

/-- From a branch: the stack has lost the entry of the branch that is pushed. -/
theorem deleteBranchWith_eq {stack : List (Nat × Nat)} (h : stack.length ≤ kStackSize)
    (node leftDelSlotId : Nat) : deleteBranchWith (pushOr full) env stack node leftDelSlotId =
      deleteBranchWith push env stack node leftDelSlotId := by
  induction stack generalizing node leftDelSlotId with
  | nil => rfl
  | cons front rest ih =>
    have hrest : rest.length < kStackSize := h
    have hrec := ih (Nat.le_of_lt hrest)
    unfold deleteBranchWith
    simp only [reinsertWith_eq hrest, hrec]

theorem deleteAtWith_eq {iter : BTreeIterator} (h : iter.stack.length ≤ kStackSize) :
    deleteAtWith (pushOr full) env iter = deleteAt env iter := by
  obtain ⟨stack, status⟩ := iter
  unfold deleteAt deleteAtWith
  match stack, h with
  | [], _ => rfl
  | [_], _ => rfl
  | _ :: front :: rest, h =>
    have hlen : rest.length + 2 ≤ kStackSize := h
    have hrest : rest.length < kStackSize := by omega
    simp only [reinsertWith_eq hrest, deleteBranchWith_eq (Nat.le_of_lt hrest)]

end Full

end BTree

/-! ## All calls -/

/-- No call on the tree finds the stack full. The calls that move an iterator return, so that each
of their pushes did, except where they stop before the first one: `Next` off the tree, and `Prev`
there when there is no root page. `Put` only pops. -/
structure BTree.NeverFull (env : Env) (s : TxState) : Prop where
  size : ∀ iter, Obtained env s iter → iter.stack.length ≤ kStackSize
  begin : ∃ iter, BTree.begin s = (.ok iter, s)
  lowerBound : ∀ key, ∃ iter, BTree.lowerBound env key s = (.ok iter, s)
  next : ∀ iter, Obtained env s iter → iter.stack ≠ [] → ∃ iter', iter.next s = (.ok iter', s)
  prev : ∀ iter, Obtained env s iter → (iter.stack ≠ [] ∨ s.rootPgid ≠ kPageInvalidId) →
    ∃ iter', iter.prev s = (.ok iter', s)
  copy : ∀ iter iter' s', Obtained env s iter → iter.copyAllPagesByPath env s = (.ok iter', s') →
    iter'.stack.length ≤ kStackSize
  delete : ∀ full key, deleteWith (BTreeIterator.pushOr full) env key s = BTree.delete env key s
  deleteAt : ∀ full iter s', Obtained env s iter →
    deleteAtWith (BTreeIterator.pushOr full) env iter s' = BTree.deleteAt env iter s'

/-- **The stack of an iterator never overflows.** -/
theorem Stands.neverFull {env : Env} {t : Shape} {s : TxState} (h : Stands env t s) :
    BTree.NeverFull env s := by
  have hsize : ∀ iter, BTree.Obtained env s iter → iter.stack.length ≤ kStackSize := by
    intro iter hiter
    cases t with
    | empty =>
      rw [hiter.eq_init h.root]
      exact Nat.zero_le _
    | tree t =>
      obtain ⟨d, hway⟩ := h.obtained hiter
      have hlen := hway.length_eq
      have hdepth := h.depth_lt
      omega
  have hlower : ∀ key, ∃ iter, BTree.lowerBound env key s = (.ok iter, s) := by
    intro key
    cases t with
    | empty => exact ⟨_, BTree.lowerBound_empty env key h.root⟩
    | tree t =>
      obtain ⟨iter, d, hrun, -⟩ := h.lowerBound key
      exact ⟨iter, hrun⟩
  have hcopy : ∀ iter iter' s', BTree.Obtained env s iter →
      iter.copyAllPagesByPath env s = (.ok iter', s') → iter'.stack.length ≤ kStackSize := by
    intro iter iter' s' hiter hrun
    rw [BTreeIterator.copyAllPagesByPath_length hrun]
    exact hsize iter hiter
  refine ⟨hsize, ?_, hlower, ?_, ?_, hcopy, ?_, ?_⟩
  · cases t with
    | empty => exact ⟨_, BTree.begin_empty h.root⟩
    | tree t =>
      obtain ⟨iter, d, hrun, -⟩ := h.begin
      exact ⟨iter, hrun⟩
  · intro iter hiter hne
    cases t with
    | empty =>
      rw [hiter.eq_init h.root] at hne
      exact absurd rfl hne
    | tree t =>
      obtain ⟨d, hway⟩ := h.obtained hiter
      obtain ⟨iter', d', hrun, -⟩ := h.next hway hne
      exact ⟨iter', hrun⟩
  · intro iter hiter hor
    cases t with
    | empty =>
      rw [hiter.eq_init h.root] at hor
      exact absurd h.root (hor.resolve_left fun hne => hne rfl)
    | tree t =>
      obtain ⟨d, hway⟩ := h.obtained hiter
      obtain ⟨iter', d', hrun, -⟩ := h.prev hway
      exact ⟨iter', hrun⟩
  · intro full key
    obtain ⟨iter, hrun⟩ := hlower key
    unfold BTree.delete BTree.deleteWith
    rw [Exec.bind_of_ok hrun, Exec.bind_of_ok hrun]
    split
    · rfl
    · -- the path is copied, and the copies are as many
      rcases hc : BTreeIterator.copyAllPagesByPath env iter s with ⟨_ | iter', s'⟩
      · rw [Exec.bind_of_error hc, Exec.bind_of_error hc]
      · rw [Exec.bind_of_ok hc, Exec.bind_of_ok hc,
          BTree.deleteAtWith_eq (hcopy iter iter' s' (.lowerBound key hrun) hc)]
        rfl
  · intro full iter s' hiter
    rw [BTree.deleteAtWith_eq (hsize iter hiter)]

theorem neverFull_twoLeaves : BTree.NeverFull smallEnv twoLeavesState :=
  shows_twoLeaves.stands.neverFull

end AtomKV
