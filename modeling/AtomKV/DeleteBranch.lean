import AtomKV.Separator

/-!
# Deletion from the branches

After two children of a branch have been merged, `BTree::Delete` takes the separator and the right
child out of the branch. A branch that is left less than two fifths full takes a key and a child
from its sibling, or is merged with it, and then its parent loses a separator in turn. A root
without keys gives way to its only child. From the keys on the path and of the siblings alone,
`Mends` says whether all of this goes well.
-/

set_option autoImplicit false

namespace AtomKV

/-! ## The way up -/

/-- The key that takes the place of the separator when a child moves between two branches. -/
def Joint.branchKey (j : Joint) : Bytes :=
  ((if j.isLeft then j.sibling.getLast? else j.sibling.head?).map Entry.key).getD []

/-- Two branches and the separator between them fit into one. -/
def Joint.Merges (P : Nat) (j : Joint) (es : List Entry) : Prop :=
  fill P es + (8 + recordStub P j.separator.key []) + fill P j.sibling ≤ P - 18

/-- The sibling has a record or key to spare. -/
def Joint.Lends (P : Nat) (j : Joint) : Prop := P - 18 < 2 * fill P j.sibling ∧ 2 ≤ j.sibling.length

instance (P : Nat) (j : Joint) (es : List Entry) : Decidable (j.Merges P es) :=
  inferInstanceAs (Decidable (_ ≤ _))

instance (P : Nat) (j : Joint) : Decidable (j.Lends P) := inferInstanceAs (Decidable (_ ∧ _))

/-- A branch with the keys `es` below the levels can be balanced: an exchange of the separator
succeeds, and what is merged fits. -/
def Mends (P : Nat) : List Level → List Entry → Prop
  | [], _ => True
  | l :: above, es => 2 * (P - 18) ≤ 5 * fill P es ∨ ∃ j ∈ l.joint,
      if j.Lends P then j.Takes P (above.map Level.keys) j.branchKey
      else j.Merges P es ∧ Mends P above (j.left ++ j.right)

instance decidableMends (P : Nat) :
    ∀ (levels : List Level) (es : List Entry), Decidable (Mends P levels es)
  | [], _ => inferInstanceAs (Decidable True)
  | _ :: above, _ =>
      have := decidableMends P above
      inferInstanceAs (Decidable (_ ∨ _))

/-- Pages that the way up can take. -/
def mendRoom (P : Nat) : List Level → ℕ
  | [] => 0
  | l :: above => 2 + entriesPages P l.leftKid + entriesPages P l.rightKid +
      levelsRoom P (l.keys :: above.map Level.keys) + mendRoom P above

namespace BTree

/-- The move of a key and a child to `node` from its sibling; the result is the new separator. -/
def rotateBranch (env : Env) (parent parentSlotId node sibling count : Nat)
    (leftSibling : Bool) : TxM Bytes :=
  if leftSibling then do
    let downKey ← Node.getKey env parent parentSlotId
    let child ← BranchNode.getTailChild sibling
    let success ← BranchNode.insert env node 0 downKey child false
    assert success
    let newKey ← Node.getKey env sibling (count - 1)
    BranchNode.pop env sibling true
    pure newKey
  else do
    BranchNode.setLeftChild parent (parentSlotId + 1) sibling
    let downKey ← Node.getKey env parent parentSlotId
    let child ← BranchNode.getLeftChild sibling 0
    let success ← BranchNode.append env node downKey child true
    assert success
    let newKey ← Node.getKey env sibling 0
    BranchNode.delete env sibling 0 false
    pure newKey

/-- The balancing of a branch with its sibling. -/
def balanceBranch (env : Env) (front : Nat × Nat) (rest : List (Nat × Nat))
    (node : Nat) : TxM Unit := do
  let (parentSlotId, sibling, leftSibling) ← getSibling front
  let sibling ← copySibling env front.1 parentSlotId sibling leftSibling
  let rate ← Node.fillRate env sibling
  let count ← Node.countOf sibling
  if Node.rateGt rate 1 2 ∧ 2 ≤ count then do
    let newKey ← rotateBranch env front.1 parentSlotId node sibling count leftSibling
    let left := if leftSibling then sibling else node
    let right := if leftSibling then node else sibling
    replaceSeparator env (BranchNode.updateKey env front.1 parentSlotId newKey) front.1 parentSlotId
      rest left right newKey
  else do
    let downKey ← Node.getKey env front.1 parentSlotId
    let left := if leftSibling then sibling else node
    let right := if leftSibling then node else sibling
    mergeBranch env left right downKey
    deleteBranch env rest front.1 parentSlotId

theorem deleteBranch_cons (env : Env) (front : Nat × Nat) (rest : List (Nat × Nat))
    (node leftDelSlotId : Nat) : deleteBranch env (front :: rest) node leftDelSlotId = (do
      BranchNode.delete env node leftDelSlotId true
      let rate ← Node.fillRate env node
      if Node.rateGe rate 2 5 then return () else balanceBranch env front rest node) := by
  conv_lhs => unfold deleteBranch deleteBranchWith
  refine bind_congr fun _ => bind_congr fun rate => ?_
  refine ite_congr rfl (fun _ => rfl) fun _ => ?_
  unfold balanceBranch
  refine bind_congr fun r => ?_
  obtain ⟨parentSlotId, sibling, leftSibling⟩ := r
  refine bind_congr fun sibling => bind_congr fun rate => bind_congr fun count => ?_
  refine ite_congr rfl (fun _ => ?_) fun _ => ?_
  · unfold rotateBranch replaceSeparator reinsert
    cases leftSibling with
    | true => simp
    | false => simp
  · cases leftSibling with
    | true => rfl
    | false => rfl

end BTree

/-! ## The move of a child -/

namespace Own

variable {Γ : PageScope} {b r : ℕ} {O : Multiset Obj} {s : TxState} {parent tpar p tp pk tk : Nat}
  {par es S : List Entry} {kpar ks A : List Nat} {u w : Entry} {c a y : Nat}

/-- What the moved key needs. -/
theorem key_admissible {q : Nat} {v : NodeView} {e : Entry} (h : Own Γ b r O s)
    (hm : Obj.node q v ∈ O) (he : e ∈ v.entries) : Admissible Γ.P e.key [] :=
  (h.admissible_of_mem hm e he).admissible.key

/-- From the left sibling: its last key rises, the separator `u` becomes the node's first key. -/
theorem rotateBranch_left {slot : Nat} (hp : ¬ Γ.keep p) (hk : ¬ Γ.keep pk)
    (hu : par[slot]? = some u) (hA : A.length = S.length) (hhalf : 2 * fill Γ.P es ≤ Γ.P - 18)
    (h : Own Γ (b + 1) r (.node parent (.branch tpar par kpar) ::ₘ .node p (.branch tp es ks) ::ₘ
      .node pk (.branch tk (S ++ [w]) (A ++ [a, y])) ::ₘ O) s) :
    ∃ s' bucket run, BTree.rotateBranch Γ.env parent slot p pk (S ++ [w]).length true s =
      (.ok w.key, s') ∧
      Own Γ b r (.node parent (.branch tpar par kpar) ::ₘ
        .node p (.branch tp (⟨u.key, [], bucket, run⟩ :: es) (y :: ks)) ::ₘ
        .node pk (.branch tk S (A ++ [a])) ::ₘ O) s' := by
  have h₀ : Own Γ (b + 1) r (.node p (.branch tp ([] ++ es) ([] ++ ks)) ::ₘ
      .node pk (.branch tk (S ++ [w]) ((A ++ [a]) ++ [y])) ::ₘ
        .node parent (.branch tpar par kpar) ::ₘ O) s := by
    refine h.perm ?_
    rw [List.append_assoc, List.nil_append, List.nil_append, List.singleton_append]
    simp only [← Multiset.singleton_add]
    abel
  have hnode : ∀ (v v' : NodeView) (N : Multiset Obj), Obj.node pk v' ∈
      .node p v ::ₘ .node pk v' ::ₘ N :=
    fun _ _ _ => by simp
  have hparent : ∀ (o o' : Obj) (N : Multiset Obj), Obj.node parent (.branch tpar par kpar) ∈
    o ::ₘ o' ::ₘ .node parent (.branch tpar par kpar) ::ₘ N := fun _ _ _ => by simp
  have hadm : Admissible Γ.P u.key [] := key_admissible h₀ (hparent _ _ _) (List.mem_of_getElem? hu)
  obtain ⟨s₁, bucket, run, hinsert, h₁⟩ := (h₀.room_mono (b + recordPages Γ.P u.key [])
    (Nat.add_le_add_left (recordPages_le_one Γ.P_pos hadm) b)).branchInsert_left' hp rfl hadm
      (fits_of_half Γ.hP hhalf u.key []) (slotFits_of_half Γ.hP hhalf (Nat.le_succ _)) y
  have hwkey : Node.getKey Γ.env pk S.length s₁ = (.ok w.key, s₁) :=
    h₁.getKey (hnode _ _ _) (by simp)
  rw [Multiset.cons_swap, List.append_assoc] at h₁
  obtain ⟨s₂, hpop, h₂⟩ := h₁.branchPop_right hk hA
  refine ⟨s₂, bucket, run, ?_, h₂.perm ?_⟩
  · unfold BTree.rotateBranch assert
    rw [if_pos rfl, Exec.bind_of_ok (h₀.getKey (hparent _ _ _) hu),
      Exec.bind_of_ok (h₀.getTailChild (hnode _ _ _))]
    show (BranchNode.insert Γ.env p ([] : List Entry).length u.key y false >>= _) s = _
    rw [Exec.bind_of_ok hinsert, Exec.require_bind rfl, List.length_append, List.length_singleton,
      Nat.add_sub_cancel, Exec.bind_of_ok hwkey, Exec.bind_of_ok hpop]
    rfl
  · simp only [List.nil_append, ← Multiset.singleton_add]
    abel

/-- From the right sibling: its first key rises, the separator `u` becomes the node's last key, and
the sibling is entered into the parent once more. -/
theorem rotateBranch_right {kpar₁ kpar₂ : List Nat} {slot : Nat} (hg : ¬ Γ.keep parent)
    (hp : ¬ Γ.keep p) (hk : ¬ Γ.keep pk) (hu : par[slot]? = some u)
    (hslot : kpar₁.length = slot + 1) (hA : A.length = es.length)
    (hhalf : 2 * fill Γ.P es ≤ Γ.P - 18)
    (h : Own Γ (b + 1) r (.node parent (.branch tpar par (kpar₁ ++ c :: kpar₂)) ::ₘ
      .node p (.branch tp es (A ++ [a])) ::ₘ .node pk (.branch tk (w :: S) (y :: ks)) ::ₘ O) s) :
    ∃ s' bucket run, BTree.rotateBranch Γ.env parent slot p pk (w :: S).length false s =
      (.ok w.key, s') ∧ Own Γ b r (.node parent (.branch tpar par (kpar₁ ++ pk :: kpar₂)) ::ₘ
        .node p (.branch tp (es ++ [⟨u.key, [], bucket, run⟩]) (A ++ [a, y])) ::ₘ
          .node pk (.branch tk S ks) ::ₘ O) s' := by
  obtain ⟨s₁, hset, h₁⟩ := h.setLeftChild hg pk
  rw [hslot] at hset
  have h₂ : Own Γ (b + 1) r (.node p (.branch tp (es ++ []) (A ++ a :: [])) ::ₘ
      .node pk (.branch tk (w :: S) (y :: ks)) ::ₘ
        .node parent (.branch tpar par (kpar₁ ++ pk :: kpar₂)) ::ₘ O) s₁ := by
    -- The sibling is entered into the parent once more; nothing else has changed so far.
    refine h₁.perm ?_
    rw [List.append_nil]
    simp only [← Multiset.singleton_add]
    abel
  have hnode : ∀ (v v' : NodeView) (N : Multiset Obj), Obj.node pk v' ∈
      .node p v ::ₘ .node pk v' ::ₘ N :=
    fun _ _ _ => by simp
  have hparent : ∀ (o o' o'' : Obj) (N : Multiset Obj), o'' ∈ o ::ₘ o' ::ₘ o'' ::ₘ N :=
    fun _ _ _ _ => by simp
  have hadm : Admissible Γ.P u.key [] :=
    key_admissible h₂ (hparent _ _ _ _) (List.mem_of_getElem? hu)
  have hfit : Fits Γ.P (es ++ []) u.key [] := by
    rw [List.append_nil]
    exact fits_of_half Γ.hP hhalf u.key []
  have hslots : SlotFits Γ.P (es ++ []) :=
    slotFits_of_half Γ.hP hhalf (by rw [List.append_nil]; exact Nat.le_succ _)
  -- The separator goes down with the first child of the sibling as its right child.
  obtain ⟨_, s₂, hinsert, rfl, bucket, run, h₃⟩ := (h₂.room_mono (b + recordPages Γ.P u.key [])
    (Nat.add_le_add_left (recordPages_le_one Γ.P_pos hadm) b)).branchInsert_right
      hp hA hadm hfit hslots y
  have hcount : Node.countOf p s₁ = (.ok es.length, s₁) := by
    have := h₂.countOf (Multiset.mem_cons_self _ _)
    rwa [List.append_nil] at this
  have happend : BranchNode.append Γ.env p u.key y true s₁ = (.ok true, s₂) := by
    unfold BranchNode.append
    rw [Exec.bind_of_ok hcount, hinsert]
  rw [Multiset.cons_swap] at h₃
  have hwkey : Node.getKey Γ.env pk 0 s₂ = (.ok w.key, s₂) :=
    h₃.getKey (Multiset.mem_cons_self _ _) rfl
  obtain ⟨s₃, hdelete, h₄⟩ := h₃.branchDelete_first hk
  refine ⟨s₃, bucket, run, ?_, h₄.perm ?_⟩
  · unfold BTree.rotateBranch assert
    rw [if_neg (by decide), Exec.bind_of_ok hset, Exec.bind_of_ok (h₂.getKey (hparent _ _ _ _) hu),
      Exec.bind_of_ok (h₂.getLeftChild (hnode _ _ _) rfl), Exec.bind_of_ok happend,
        Exec.require_bind rfl,
      Exec.bind_of_ok hwkey, Exec.bind_of_ok hdelete]
    rfl
  · simp only [← Multiset.singleton_add]
    abel

end Own

section Rotate

variable {Γ : Scope} {b r : ℕ} {O : Multiset Obj} {s : TxState} {d : ℕ} {g : Frame (d + 1)}

/-- Two neighbouring trees with a key between them, before and after a move. -/
structure Rotated (Γ : Scope) {d : ℕ} (first second : Tree d) (down : Bytes) (tl tr : Tree d)
    (up : Bytes) : Prop where
  first_eq : tl.pgid = first.pgid
  second_eq : tr.pgid = second.pgid
  flat_eq : tl.flat ++ .separator up :: tr.flat = first.flat ++ .separator down :: second.flat
  left : tl.Sound Γ
  right : tr.Sound Γ

/-- The keys and children of two branches, with a child moved over the key between them. -/
theorem weave_rotate {A B : List (Tree d)} {x : Tree d} {es es' : List Entry} {u w : Entry}
    (hA : A.length = es.length + 1) (hB : B ≠ []) :
    weave ((A ++ [x]).map Tree.flat) (separatorItems (es ++ [u])) ++
        .separator w.key :: weave (B.map Tree.flat) (separatorItems es') =
      weave (A.map Tree.flat) (separatorItems es) ++
        .separator u.key :: weave ((x :: B).map Tree.flat) (separatorItems (w :: es')) := by
  have hB' : B.map Tree.flat ≠ [] := fun hnil => hB (List.map_eq_nil_iff.1 hnil)
  rw [← weave_append _ _ _ _ _ (by simp [hA]) hB',
    ← weave_append _ _ _ _ _ (by simpa using hA) (by simp)]
  simp only [List.map_append, List.map_cons, List.map_nil, List.append_assoc, List.singleton_append,
    separatorItems_append, separatorItems_cons, separatorItems_nil]

/-- From the left sibling: its last child becomes the node's first one. -/
theorem rotateBranch_left {p tp pk tk : Nat} {u w : Entry} {es S : List Entry}
    {kids K : List (Tree d)} {y : Tree d} (len : kids.length = es.length + 1)
    (lenK : (K ++ [y]).length = (S ++ [w]).length + 1)
    (hp : ¬ Γ.keep p) (hk : ¬ Γ.keep pk) (hS : S ≠ []) (hkids : ∀ k ∈ kids, k.Sound Γ)
    (hK : ∀ k ∈ K ++ [y], k.Sound Γ) (hhalf : 2 * fill Γ.P es ≤ Γ.P - 18)
    (h : Own Γ (b + 1) r (g.two u pk p ::ₘ
      ((Tree.branch pk tk (S ++ [w]) (K ++ [y]) lenK).objs +
        (Tree.branch p tp es kids len).objs + O)) s) :
    Exec.Ok (BTree.rotateBranch Γ.env g.pgid g.esL.length p pk (S ++ [w]).length true)
      s fun newKey s' => newKey = w.key ∧ Admissible Γ.P newKey [] ∧ ∃ tl tr : Tree (d + 1),
        Rotated Γ (.branch pk tk (S ++ [w]) (K ++ [y]) lenK) (.branch p tp es kids len)
          u.key tl tr newKey ∧
        Own Γ b r (g.two u pk p ::ₘ (tl.objs + tr.objs + O)) s' := by
  have lenl : K.length = S.length + 1 := by simpa using lenK
  have hne : kids ≠ [] := fun hnil => by simp [hnil] at len
  have hy : y ∈ K ++ [y] := List.mem_append_right _ (List.mem_singleton_self y)
  obtain ⟨A, a, hA⟩ : ∃ A a, K.map Tree.pgid = A ++ [a] := by
    refine (List.eq_nil_or_concat' _).resolve_left fun hnil => ?_
    simp [List.map_eq_nil_iff.1 hnil] at lenl
  have hAlen : A.length = S.length := by
    have := congrArg List.length hA
    simp only [List.length_map, List.length_append, List.length_singleton] at this
    omega
  have hkids' : (K ++ [y]).map Tree.pgid = A ++ [a, y.pgid] := by simp [hA]
  have hsum : ((K ++ [y]).map Tree.objs).sum = (K.map Tree.objs).sum + y.objs := by simp
  rw [Tree.objs_branch, Tree.objs_branch, hkids', hsum] at h
  -- the two nodes and their parent, apart from what is below
  set N : Multiset Obj := (K.map Tree.objs).sum + y.objs + (kids.map Tree.objs).sum + O with hN
  have h₀ : Own Γ (b + 1) r (g.two u pk p ::ₘ .node p (.branch tp es (kids.map Tree.pgid)) ::ₘ
      .node pk (.branch tk (S ++ [w]) (A ++ [a, y.pgid])) ::ₘ N) s := by
    refine h.perm ?_
    rw [hN]
    simp only [← Multiset.singleton_add]
    abel
  have hadmw : Admissible Γ.P w.key [] := h₀.key_admissible
    (show Obj.node pk (.branch tk (S ++ [w]) (A ++ [a, y.pgid])) ∈ _ by simp) (by simp)
  have hu : (g.esL ++ u :: g.esR)[g.esL.length]? = some u := by simp
  obtain ⟨s', bucket, run, hrun, h'⟩ := Own.rotateBranch_left hp hk hu hAlen hhalf h₀
  have lenr : (y :: kids).length = (⟨u.key, [], bucket, run⟩ :: es : List Entry).length + 1 := by
    simp [len]
  refine Exec.Ok.intro w.key s' hrun ⟨rfl, hadmw, .branch pk tk S K lenl,
    .branch p tp (⟨u.key, [], bucket, run⟩ :: es) (y :: kids) lenr,
      ⟨rfl, rfl, ?_, ?_, ?_⟩, h'.perm ?_⟩
  · exact (weave_rotate (u := w) (w := ⟨u.key, [], bucket, run⟩) lenl hne).symm
  · exact Tree.Sound.branch hk hS fun k hk' => hK k (List.mem_append_left _ hk')
  · refine Tree.Sound.branch hp (by simp) fun k hk' => ?_
    rcases List.mem_cons.1 hk' with rfl | hk'
    · exact hK k hy
    · exact hkids k hk'
  · rw [Tree.objs_branch, Tree.objs_branch, hA, hN]
    unfold Frame.two
    simp only [List.map_cons, List.sum_cons, ← Multiset.singleton_add]
    abel

/-- From the right sibling: its first child becomes the node's last one. -/
theorem rotateBranch_right {p tp pk tk : Nat} {u w : Entry} {es S : List Entry}
    {kids K : List (Tree d)} {y : Tree d} (len : kids.length = es.length + 1)
    (lenK : (y :: K).length = (w :: S).length + 1) (hg : ¬ Γ.keep g.pgid)
    (hp : ¬ Γ.keep p) (hk : ¬ Γ.keep pk) (hS : S ≠ []) (hkids : ∀ k ∈ kids, k.Sound Γ)
    (hK : ∀ k ∈ y :: K, k.Sound Γ) (hhalf : 2 * fill Γ.P es ≤ Γ.P - 18)
    (h : Own Γ (b + 1) r (g.two u p pk ::ₘ
      ((Tree.branch p tp es kids len).objs + (Tree.branch pk tk (w :: S) (y :: K) lenK).objs + O))
        s) :
    Exec.Ok (BTree.rotateBranch Γ.env g.pgid g.esL.length p pk (w :: S).length false)
      s fun newKey s' => newKey = w.key ∧ Admissible Γ.P newKey [] ∧ ∃ tl tr : Tree (d + 1),
        Rotated Γ (.branch p tp es kids len) (.branch pk tk (w :: S) (y :: K) lenK)
          u.key tl tr newKey ∧
        Own Γ b r (g.two u p pk ::ₘ (tl.objs + tr.objs + O)) s' := by
  have lenr : K.length = S.length + 1 := by simpa using lenK
  have hne : K ≠ [] := fun hnil => by simp [hnil] at lenr
  obtain ⟨A, a, hA⟩ : ∃ A a, kids.map Tree.pgid = A ++ [a] := by
    refine (List.eq_nil_or_concat' _).resolve_left fun hnil => ?_
    simp [List.map_eq_nil_iff.1 hnil] at len
  have hAlen : A.length = es.length := by
    have := congrArg List.length hA
    simp only [List.length_map, List.length_append, List.length_singleton] at this
    omega
  rw [Tree.objs_branch, Tree.objs_branch, hA] at h
  set N : Multiset Obj := (kids.map Tree.objs).sum + ((y :: K).map Tree.objs).sum + O with hN
  -- the right child is entered into the parent once more
  have htwo : g.two u p pk = .node g.pgid (.branch g.txid (g.esL ++ u :: g.esR)
      ((g.ksL.map Tree.pgid ++ [p]) ++ pk :: g.ksR.map Tree.pgid)) := by
    unfold Frame.two
    rw [List.append_assoc, List.singleton_append]
  have h₀ : Own Γ (b + 1) r (g.two u p pk ::ₘ .node p (.branch tp es (A ++ [a])) ::ₘ
      .node pk (.branch tk (w :: S) (y.pgid :: K.map Tree.pgid)) ::ₘ N) s := by
    refine h.perm ?_
    rw [hN]
    simp only [List.map_cons, ← Multiset.singleton_add]
    abel
  have hadmw : Admissible Γ.P w.key [] := h₀.key_admissible
    (show Obj.node pk (.branch tk (w :: S) (y.pgid :: K.map Tree.pgid)) ∈ _ by simp) (by simp)
  rw [htwo] at h₀
  have hu : (g.esL ++ u :: g.esR)[g.esL.length]? = some u := by simp
  have hindex : (g.ksL.map Tree.pgid ++ [p]).length = g.esL.length + 1 := by simp [g.lenL]
  obtain ⟨s', bucket, run, hrun, h'⟩ := h₀.rotateBranch_right hg hp hk hu hindex hAlen hhalf
  rw [← htwo] at h'
  set down : Entry := ⟨u.key, [], bucket, run⟩ with hdown
  have lenl : (kids ++ [y]).length = (es ++ [down]).length + 1 := by simp [len]
  refine Exec.Ok.intro w.key s' hrun ⟨rfl, hadmw, .branch p tp (es ++ [down]) (kids ++ [y]) lenl,
    .branch pk tk S K lenr, ⟨rfl, rfl, ?_, ?_, ?_⟩, h'.perm ?_⟩
  · exact weave_rotate (u := down) len hne
  · refine Tree.Sound.branch hp (by simp) fun k hk' => ?_
    rcases List.mem_append.1 hk' with hk' | hk'
    · exact hkids k hk'
    · rw [List.mem_singleton.1 hk']
      exact hK y List.mem_cons_self
  · exact Tree.Sound.branch hk hS fun k hk' => hK k (List.mem_cons_of_mem _ hk')
  · rw [Tree.objs_branch, Tree.objs_branch, List.map_append, hA, hN]
    simp only [List.map_cons, List.map_append, List.map_nil, List.sum_cons, List.sum_append,
      List.sum_nil, add_zero, List.append_assoc, List.singleton_append, ← Multiset.singleton_add]
    abel

/-- **The move of a child** between two branches. -/
theorem rotateBranch_ok {j : Joint} {t k : Tree (d + 1)} (hsibling : k.entries = j.sibling)
    (htwo : 2 ≤ j.sibling.length) (hg : ¬ Γ.keep g.pgid) (ht : ¬ Γ.keep t.pgid)
    (hk : ¬ Γ.keep k.pgid) (hkids : ∀ x ∈ BranchNodeT.kids t, x.Sound Γ)
    (hsound : k.Sound Γ) (hhalf : 2 * fill Γ.P t.entries ≤ Γ.P - 18) (h : Own Γ (b + 1) r
      (g.two j.separator (j.first t k).pgid (j.second t k).pgid ::ₘ (t.objs + k.objs + O)) s) :
    Exec.Ok (BTree.rotateBranch Γ.env g.pgid g.esL.length t.pgid k.pgid j.sibling.length j.isLeft)
      s fun newKey s' => newKey = j.branchKey ∧ Admissible Γ.P newKey [] ∧ ∃ tl tr : Tree (d + 1),
        Rotated Γ (j.first t k) (j.second t k) j.separator.key tl tr newKey ∧
        Own Γ b r (g.two j.separator tl.pgid tr.pgid ::ₘ (tl.objs + tr.objs + O)) s' := by
  obtain ⟨p, tp, es, kids, len, rfl⟩ := t.exists_branch
  obtain ⟨pk, tk, esK, K, lenK, rfl⟩ := k.exists_branch
  obtain ⟨left, u, right, sibling, isLeft⟩ := j
  obtain rfl : esK = sibling := hsibling
  cases isLeft with
  | true =>
    obtain ⟨S, w, rfl⟩ := (List.eq_nil_or_concat' esK).resolve_left fun hnil => by
      simp [hnil] at htwo
    obtain ⟨K, y, rfl⟩ := (List.eq_nil_or_concat' K).resolve_left fun hnil => by simp [hnil] at lenK
    have hS : S ≠ [] := fun hnil => by simp [hnil] at htwo
    obtain ⟨newKey, s', hrun, rfl, hadm, tl, tr, hrot, h'⟩ :=
      rotateBranch_left len lenK ht hk hS hkids hsound.kids hhalf (h.perm (by
        rw [add_comm (Tree.objs _) (Tree.objs _)]
        rfl))
    refine Exec.Ok.intro w.key s' hrun ⟨by simp [Joint.branchKey], hadm, tl, tr, hrot, ?_⟩
    rw [hrot.first_eq, hrot.second_eq]
    exact h'
  | false =>
    obtain ⟨w, S, rfl⟩ := List.exists_cons_of_ne_nil (l := esK) fun hnil => by simp [hnil] at htwo
    obtain ⟨y, K, rfl⟩ := List.exists_cons_of_ne_nil (l := K) fun hnil => by simp [hnil] at lenK
    have hS : S ≠ [] := fun hnil => by simp [hnil] at htwo
    obtain ⟨newKey, s', hrun, rfl, hadm, tl, tr, hrot, h'⟩ :=
      rotateBranch_right len lenK hg ht hk hS hkids hsound.kids hhalf h
    refine Exec.Ok.intro w.key s' hrun ⟨rfl, hadm, tl, tr, hrot, ?_⟩
    rw [hrot.first_eq, hrot.second_eq]
    exact h'

end Rotate

/-! ## Merging two branches -/

section MergeTrees

variable {Γ : Scope} {b r : ℕ} {O : Multiset Obj} {s : TxState} {d : ℕ}

theorem mergeBranch_trees {first second : Tree (d + 1)} {downKey : Bytes}
    (hfirst : ¬ Γ.keep first.pgid) (hadm : Admissible Γ.P downKey [])
    (hkids : ∀ k ∈ BranchNodeT.kids first, k.Sound Γ)
    (hkids' : ∀ k ∈ BranchNodeT.kids second, k.Sound Γ)
    (h : Own Γ (b + (entriesPages Γ.P second.entries + recordPages Γ.P downKey [])) r
      (first.objs + second.objs + O) s) (hslots : SlotFits Γ.P (first.entries ++ second.entries)) :
    (fill Γ.P first.entries + (8 + recordStub Γ.P downKey []) + fill Γ.P second.entries ≤ Γ.P - 18 →
      Exec.Ok (BTree.mergeBranch Γ.env first.pgid second.pgid downKey) s fun _ s' =>
        ∃ (m : Tree (d + 1)) (G : Multiset Obj), m.pgid = first.pgid ∧
          m.flat = first.flat ++ .separator downKey :: second.flat ∧ m.Sound Γ ∧ JunkOnly G ∧
          Own Γ b r (m.objs + (G + O)) s') ∧
    (Γ.P - 18 < fill Γ.P first.entries + (8 + recordStub Γ.P downKey []) + fill Γ.P second.entries →
      Exec.Fails (BTree.mergeBranch Γ.env first.pgid second.pgid downKey) s) := by
  obtain ⟨p, tp, es, kids, len, rfl⟩ := first.exists_branch
  obtain ⟨q, tq, es', kids', len', rfl⟩ := second.exists_branch
  have h₀ : Own Γ (b + (entriesPages Γ.P es' + recordPages Γ.P downKey [])) r
      (.node p (.branch tp es (kids.map Tree.pgid)) ::ₘ
        .node q (.branch tq es' (kids'.map Tree.pgid)) ::ₘ
        ((kids.map Tree.objs).sum + (kids'.map Tree.objs).sum + O)) s := by
    refine h.perm ?_
    rw [Tree.objs_branch, Tree.objs_branch, Multiset.cons_add, Multiset.cons_add, Multiset.add_cons,
      Multiset.cons_add]
  obtain ⟨hok, hfails⟩ := mergeBranch_ok hfirst hadm h₀ hslots
  refine ⟨fun hroom => ?_, hfails⟩
  obtain ⟨_, s', hrun, u, R, G, rfl, hR, hG, h'⟩ := hok hroom
  -- The key from above stands for the child that the two lists of children have more than keys.
  have lenm : (kids ++ kids').length = (es ++ u :: R).length + 1 := by
    have := hR.length_eq
    simp only [List.length_append, List.length_cons]
    omega
  have hne : kids'.map Tree.flat ≠ [] := fun hnil => by
    rw [List.map_eq_nil_iff.1 hnil] at len'
    cases len'
  refine Exec.Ok.intro () s' hrun
    ⟨.branch p tp (es ++ u :: R) (kids ++ kids') lenm, G, rfl, ?_, ?_, hG, h'.perm ?_⟩
  · rw [Tree.flat_branch, Tree.flat_branch, Tree.flat_branch, separatorItems_append,
      separatorItems_cons, hR.separatorItems_eq, List.map_append,
        weave_append _ _ _ _ _ (by simpa using len) hne]
  · refine Tree.Sound.branch hfirst (by simp) fun k hk => ?_
    rcases List.mem_append.1 hk with hk | hk
    · exact hkids k hk
    · exact hkids' k hk
  · rw [Tree.objs_branch, List.map_append, List.map_append, List.sum_append]
    show Obj.node p _ ::ₘ _ = _
    simp only [← Multiset.singleton_add]
    abel

end MergeTrees

end AtomKV
