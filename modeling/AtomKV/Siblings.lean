import AtomKV.Put

/-!
# Siblings

A node that a deletion has left less than two fifths full is balanced with a sibling: the next child
of its branch, or the one before it when it is the last child. `Level.joint` finds the two and the
separator between them from the keys alone; `Frame.Beside` relates this to a path, in which node and
sibling become two neighbouring holes.
-/

set_option autoImplicit false

namespace AtomKV

/-! ## The root of a tree as a node -/

namespace Tree

variable {d : ℕ}

/-- What the root's page holds. -/
def view : {d : ℕ} → Tree d → NodeView
  | 0, t => .leaf (LeafNodeT.txid t) (LeafNodeT.entries t)
  | _ + 1, t => .branch (BranchNodeT.txid t) (BranchNodeT.entries t) ((BranchNodeT.kids t).map pgid)

/-- The nodes below the root. -/
def below : {d : ℕ} → Tree d → Multiset Obj
  | 0, _ => 0
  | _ + 1, t => ((BranchNodeT.kids t).map objs).sum

/-- The records or keys of the root. -/
def entries : {d : ℕ} → Tree d → List Entry
  | 0, t => LeafNodeT.entries t
  | _ + 1, t => BranchNodeT.entries t

/-- The tree with its root in another page. -/
def moved : {d : ℕ} → Tree d → Nat → Nat → Tree d
  | 0, t, pgid, txid => leaf pgid txid (LeafNodeT.entries t)
  | _ + 1, t, pgid, txid => branch pgid txid (BranchNodeT.entries t) (BranchNodeT.kids t)
      (BranchNodeT.len t)

theorem objs_eq (t : Tree d) : t.objs = .node t.pgid t.view ::ₘ t.below := by
  cases d with
  | zero => exact (Multiset.cons_zero _).symm
  | succ d => rfl

theorem entries_eq (t : Tree d) : t.view.entries = t.entries := by
  cases d <;> rfl

variable (t : Tree d) (q txid : Nat)

@[simp] theorem pgid_moved : (t.moved q txid).pgid = q := by cases d <;> rfl

@[simp] theorem view_moved : (t.moved q txid).view = { t.view with txid := txid } := by
  cases d <;> rfl

@[simp] theorem below_moved : (t.moved q txid).below = t.below := by cases d <;> rfl

@[simp] theorem flat_moved : (t.moved q txid).flat = t.flat := by cases d <;> rfl

@[simp] theorem entries_moved : (t.moved q txid).entries = t.entries := by cases d <;> rfl

@[simp] theorem full_moved : (t.moved q txid).Full ↔ t.Full := by cases d <;> exact Iff.rfl

/-- A page that need not be kept is a safe root. -/
theorem Safe.moved {need : Nat → Bool} {keep : Nat → Prop} (h : t.Safe need keep) (hq : ¬ keep q) :
    (t.moved q txid).Safe need keep := by
  cases d with
  | zero => exact fun hk => absurd hk hq
  | succ d => exact ⟨h.1, fun hk => absurd hk hq⟩

/-- A page that is written in place is not kept. -/
theorem Safe.not_keep {need : Nat → Bool} {keep : Nat → Prop} (h : t.Safe need keep)
    (hneed : need t.txid = false) : ¬ keep t.pgid := by
  intro hk
  cases d with
  | zero =>
    have := h hk
    rw [show need (LeafNodeT.txid t) = false from hneed] at this
    cases this
  | succ d =>
    have := (h.2 hk).1
    rw [show need (BranchNodeT.txid t) = false from hneed] at this
    cases this

end Tree

/-! ## What a path shows of the siblings -/

/-- What a path passes in a branch: the keys left and right of it, and the records or keys of the
children next to it. -/
structure Level where
  left : List Entry
  right : List Entry
  leftKid : List Entry
  rightKid : List Entry

/-- The keys of a branch around the separator between a node and the sibling it is balanced with,
and the sibling's records or keys. -/
structure Joint where
  left : List Entry
  separator : Entry
  right : List Entry
  sibling : List Entry
  isLeft : Bool

namespace Level

def keys (l : Level) : List Entry × List Entry := (l.left, l.right)

/-- The sibling is the right one; the last child takes the left one. -/
def joint (l : Level) : Option Joint :=
  match l.right with
  | u :: right => some ⟨l.left, u, right, l.rightKid, false⟩
  | [] => l.left.getLast?.map fun u => ⟨l.left.dropLast, u, [], l.leftKid, true⟩

end Level

/-- Of a node and its sibling, the left one. -/
def Joint.first {α : Type} (j : Joint) (node sibling : α) : α := if j.isLeft then sibling else node

/-- Of a node and its sibling, the right one. -/
def Joint.second {α : Type} (j : Joint) (node sibling : α) : α := if j.isLeft then node else sibling

section Order

variable {α : Type} {j : Joint} {node sibling : α}

theorem Joint.first_left (h : j.isLeft = true) : j.first node sibling = sibling := if_pos h

theorem Joint.second_left (h : j.isLeft = true) : j.second node sibling = node := if_pos h

theorem Joint.first_right (h : j.isLeft = false) : j.first node sibling = node :=
  if_neg (by rw [h]; decide)

theorem Joint.second_right (h : j.isLeft = false) : j.second node sibling = sibling :=
  if_neg (by rw [h]; decide)

end Order

/-- The levels that the way of `key` through the tree passes, from the leaf up; `above` are the ones
passed already. -/
def Tree.sides (cmp : Bytes → Bytes → Ordering) (key : Bytes) :
    {d : ℕ} → Tree d → List Level → List Level
  | 0, _, above => above
  | d + 1, t, above =>
      let es := BranchNodeT.entries t
      let kids : List (Tree d) := BranchNodeT.kids t
      let n := (es.takeWhile fun e => cmp key e.key ≠ .lt).length
      match kids[n]? with
      | some k => sides cmp key (d := d) k
          (⟨es.take n, es.drop n, ((kids.take n).getLast?.map entries).getD [],
          ((kids.drop (n + 1)).head?.map entries).getD []⟩ :: above)
      | none => above

namespace Frame

variable {d : ℕ}

def level (f : Frame d) : Level :=
  ⟨f.esL, f.esR, (f.ksL.getLast?.map Tree.entries).getD [], (f.ksR.head?.map Tree.entries).getD []⟩

/-- The branch with two neighbouring children. -/
def two (g : Frame d) (u : Entry) (left right : Nat) : Obj :=
  .node g.pgid
    (.branch g.txid (g.esL ++ u :: g.esR)
      (g.ksL.map Tree.pgid ++ left :: right :: g.ksR.map Tree.pgid))

/-- The branch with two neighbouring children, as a tree. -/
def fillTwo (g : Frame d) (u : Entry) (tl tr : Tree d) : Tree (d + 1) :=
  .branch g.pgid g.txid (g.esL ++ u :: g.esR) (g.ksL ++ tl :: tr :: g.ksR) (by
    have := g.lenL
    have := g.lenR
    simp only [List.length_append, List.length_cons]
    omega)

theorem objs_fillTwo (g : Frame d) (u : Entry) (tl tr : Tree d) :
    (g.fillTwo u tl tr).objs = g.two u tl.pgid tr.pgid ::ₘ (g.sideObjs + (tl.objs + tr.objs)) := by
  rw [← g.objs_two]
  unfold fillTwo two
  rw [Tree.objs_branch, List.map_append, List.map_cons, List.map_cons]

theorem flat_fillTwo (g : Frame d) (u : Entry) (tl tr : Tree d) :
    (g.fillTwo u tl tr).flat = g.before ++ (tl.flat ++ .separator u.key :: tr.flat) ++ g.after := by
  rw [← g.weave_two]
  unfold fillTwo
  rw [Tree.flat_branch, separatorItems_append, separatorItems_cons]

/-- In the branch `f` the child `k` is the sibling of the hole; `g` is the branch without it and
the separator. -/
inductive Beside : Frame d → Joint → Frame d → Tree d → Prop where
  | right {p t : Nat} {esL esR : List Entry} {u : Entry} {ksL ksR : List (Tree d)} {k : Tree d}
      (lenL : ksL.length = esL.length) (lenR : (k :: ksR).length = (u :: esR).length)
        (lenR' : ksR.length = esR.length) :
      Beside ⟨p, t, esL, ksL, u :: esR, k :: ksR, lenL, lenR⟩ ⟨esL, u, esR, k.entries, false⟩
        ⟨p, t, esL, ksL, esR, ksR, lenL, lenR'⟩ k
  | left {p t : Nat} {esL : List Entry} {u : Entry} {ksL : List (Tree d)} {k : Tree d}
      (lenL : (ksL ++ [k]).length = (esL ++ [u]).length) (lenL' : ksL.length = esL.length) :
      Beside ⟨p, t, esL ++ [u], ksL ++ [k], [], [], lenL, rfl⟩ ⟨esL, u, [], k.entries, true⟩
        ⟨p, t, esL, ksL, [], [], lenL', rfl⟩ k

/-- A child of a branch with a key has a sibling. -/
theorem exists_beside (f : Frame d) (h : f.esL ++ f.esR ≠ []) :
    ∃ j g k, f.level.joint = some j ∧ Beside f j g k := by
  obtain ⟨p, t, esL, ksL, esR, ksR, lenL, lenR⟩ := f
  cases esR with
  | cons u esR =>
    cases ksR with
    | nil => cases lenR
    | cons k ksR => exact ⟨_, _, k, rfl, .right lenL lenR (Nat.succ.inj lenR)⟩
  | nil =>
    obtain rfl : ksR = [] := List.length_eq_zero_iff.1 lenR
    cases esL using List.reverseRecOn with
    | nil => exact absurd rfl h
    | append_singleton esL u =>
      cases ksL using List.reverseRecOn with
      | nil => simp at lenL
      | append_singleton ksL k =>
        exact ⟨⟨esL, u, [], k.entries, true⟩, _, k, by simp [level, Level.joint],
          .left lenL (by simpa using lenL)⟩

namespace Beside

variable {f g : Frame d} {j : Joint} {k : Tree d}

theorem joint_eq (h : Beside f j g k) : f.level.joint = some j := by
  cases h with
  | right => rfl
  | left => simp [level, Level.joint]

theorem pgid_eq (h : Beside f j g k) : g.pgid = f.pgid := by
  cases h <;> rfl

theorem txid_eq (h : Beside f j g k) : g.txid = f.txid := by
  cases h <;> rfl

theorem left_eq (h : Beside f j g k) : g.esL = j.left := by
  cases h <;> rfl

theorem right_eq (h : Beside f j g k) : g.esR = j.right := by
  cases h <;> rfl

theorem sibling_eq (h : Beside f j g k) : k.entries = j.sibling := by
  cases h <;> rfl

theorem keys_eq (h : Beside f j g k) : f.esL ++ f.esR = g.esL ++ j.separator :: g.esR := by
  cases h with
  | right => rfl
  | left => exact List.append_nil _

/-- The children with the hole filled. -/
theorem kids_eq {α : Type} (h : Beside f j g k) (p : Tree d → α) (x : α) :
    f.ksL.map p ++ x :: f.ksR.map p =
      g.ksL.map p ++ j.first x (p k) :: j.second x (p k) :: g.ksR.map p := by
  cases h with
  | right => rfl
  | left => simp [Joint.first, Joint.second]

theorem obj_eq (h : Beside f j g k) (x : Nat) :
    f.obj x = g.two j.separator (j.first x k.pgid) (j.second x k.pgid) := by
  unfold obj two
  rw [h.keys_eq, h.kids_eq Tree.pgid, h.pgid_eq, h.txid_eq]

theorem sideObjs_eq (h : Beside f j g k) : f.sideObjs = g.sideObjs + k.objs := by
  unfold sideObjs
  cases h with
  | right =>
    simp only [List.map_cons, List.sum_cons]
    abel
  | left =>
    simp only [List.map_append, List.map_cons, List.map_nil, List.sum_append,
      List.sum_cons, List.sum_nil]
    abel

/-- The in-order sequence with node and sibling apart. -/
theorem flat_eq (h : Beside f j g k) (t : Tree d) : f.before ++ (t.flat ++ f.after) =
    g.before ++ ((j.first t k).flat ++ .separator j.separator.key :: (j.second t k).flat) ++
      g.after := by
  have hfirst : (j.first t k).flat = j.first t.flat k.flat := by
    unfold Joint.first
    split <;> rfl
  have hsecond : (j.second t k).flat = j.second t.flat k.flat := by
    unfold Joint.second
    split <;> rfl
  rw [← f.flat_fill t, ← g.weave_two]
  show weave ((f.ksL ++ t :: f.ksR).map Tree.flat) (separatorItems (f.esL ++ f.esR)) = _
  rw [h.keys_eq, separatorItems_append, separatorItems_cons, List.map_append, List.map_cons,
    h.kids_eq Tree.flat, List.map_append, List.map_cons, List.map_cons, hfirst, hsecond]

theorem full (h : Beside f j g k) (hf : f.Full) :
    k.Full ∧ (∀ t ∈ g.ksL, t.Full) ∧ ∀ t ∈ g.ksR, t.Full := by
  obtain ⟨-, h1, h2⟩ := hf
  cases h with
  | right =>
    exact ⟨h2 k List.mem_cons_self, h1, fun t ht => h2 t (List.mem_cons_of_mem _ ht)⟩
  | left =>
    exact ⟨h1 k (by simp), fun t ht => h1 t (List.mem_append_left _ ht), fun t ht => by cases ht⟩

theorem safe {need : Nat → Bool} {keep : Nat → Prop} (h : Beside f j g k)
    (hL : ∀ t ∈ f.ksL, t.Safe need keep) (hR : ∀ t ∈ f.ksR, t.Safe need keep) :
    k.Safe need keep ∧ (∀ t ∈ g.ksL, t.Safe need keep) ∧ ∀ t ∈ g.ksR, t.Safe need keep := by
  cases h with
  | right =>
    exact ⟨hR k List.mem_cons_self, hL, fun t ht => hR t (List.mem_cons_of_mem _ ht)⟩
  | left =>
    exact ⟨hL k (by simp), fun t ht => hL t (List.mem_append_left _ ht), fun t ht => by cases ht⟩

end Beside

end Frame

/-! ## The levels of a path -/

/-- The levels of a path, from the hole up. -/
def Ctx.sides : {d D : ℕ} → Ctx d D → List Level
  | _, _, .top => []
  | _, _, .under f c => f.level :: c.sides

section Sides

variable {cmp : Bytes → Bytes → Ordering} {key : Bytes}

theorem Tree.sides_of_kid {d n : ℕ} {t : Tree (d + 1)} {k : Tree d} {above : List Level}
    (hn : ((BranchNodeT.entries t).takeWhile fun e => cmp key e.key ≠ .lt).length = n)
    (hk : (BranchNodeT.kids t)[n]? = some k) :
    Tree.sides (d := d + 1) cmp key t above = k.sides cmp key
      (⟨(BranchNodeT.entries t).take n, (BranchNodeT.entries t).drop n,
        (((BranchNodeT.kids t).take n).getLast?.map Tree.entries).getD [],
        (((BranchNodeT.kids t).drop (n + 1)).head?.map Tree.entries).getD []⟩ :: above) := by
  subst hn
  simp only [Tree.sides, hk]

theorem Frame.sides_fill {d : ℕ} (f : Frame d) (t : Tree d) (above : List Level)
    (hL : ∀ a ∈ f.esL, cmp key a.key ≠ .lt) (hR : ∀ a ∈ f.esR, cmp key a.key = .lt) :
    (f.fill t).sides cmp key above = t.sides cmp key (f.level :: above) := by
  obtain ⟨htake, -⟩ := takeWhile_append_all (p := fun e : Entry => decide (cmp key e.key ≠ .lt))
    f.esL f.esR (fun a ha => decide_eq_true (hL a ha))
    (fun a ha => decide_eq_false fun h => h (hR a ha))
  have hentries : BranchNodeT.entries (f.fill t) = f.esL ++ f.esR := rfl
  have hkids : BranchNodeT.kids (f.fill t) = f.ksL ++ t :: f.ksR := rfl
  have hkid : (BranchNodeT.kids (f.fill t))[f.esL.length]? = some t := by
    rw [hkids]
    simp [← f.lenL]
  have hbefore : (BranchNodeT.kids (f.fill t)).take f.esL.length = f.ksL := by
    rw [hkids, ← f.lenL, List.take_left]
  have hafter : (BranchNodeT.kids (f.fill t)).drop (f.esL.length + 1) = f.ksR := by
    rw [hkids, ← f.lenL, ← List.drop_drop, List.drop_left]
    rfl
  rw [Tree.sides_of_kid (by rw [hentries, htake]) hkid, hentries, List.take_left,
    List.drop_left, hbefore, hafter]
  rfl

theorem Ctx.sides_plug {d D : ℕ} (c : Ctx d D) (t : Tree d) (above : List Level)
    (hlow : ∀ x ∈ c.before, x.Low cmp key) (hhigh : ∀ x ∈ c.after, x.High cmp key) :
    (c.plug t).sides cmp key above = t.sides cmp key (c.sides ++ above) := by
  induction c generalizing above with
  | top => rfl
  | under f c ih =>
    have hbefore : ∀ a ∈ f.esL, Item.separator a.key ∈ (Ctx.under f c).before := fun a ha =>
      List.mem_append_right _ (mem_weavePre_of_mem (by simpa using f.lenL) (List.mem_map_of_mem ha))
    have hafter : ∀ a ∈ f.esR, Item.separator a.key ∈ (Ctx.under f c).after := fun a ha =>
      List.mem_append_left _ (mem_weavePost_of_mem (by simpa using f.lenR) (List.mem_map_of_mem ha))
    rw [Ctx.plug, ih (f.fill t) above (fun x hx => hlow x (List.mem_append_left _ hx))
      (fun x hx => hhigh x (List.mem_append_right _ hx)),
      f.sides_fill t _ (fun a ha => hlow _ (hbefore a ha)) (fun a ha => hhigh _ (hafter a ha))]
    rfl

/-- The levels above the place of a key. -/
theorem Place.At.sides_eq {D : ℕ} {p : Place D} {t : Tree D} (h : p.At cmp key t) :
    t.sides cmp key [] = p.ctx.sides := by
  have hsides := p.ctx.sides_plug (.leaf p.pgid p.txid p.entries) []
    (fun x hx => h.low x (List.mem_append_left _ hx))
      (fun x hx => h.high x (List.mem_append_right _ hx))
  rw [← h.tree_eq]
  refine hsides.trans ?_
  exact List.append_nil _

theorem Ctx.Alike.sides_eq {d D : ℕ} {c c' : Ctx d D} (h : Ctx.Alike c c') :
    c'.sides = c.sides := by
  induction h with
  | top => rfl
  | under f pgid txid _ ih => exact congrArg (f.level :: ·) ih

end Sides

/-! ## Sound surroundings -/

/-- A subtree that may stand beside others. -/
structure Tree.Sound (Γ : Scope) {d : ℕ} (t : Tree d) : Prop where
  full : t.Full
  safe : t.Safe Γ.need Γ.keep

/-- The branches of a path may be written, and the trees beside it are sound. -/
structure Ctx.Sound (Γ : Scope) {d D : ℕ} (c : Ctx d D) : Prop where
  free : c.Free Γ.keep
  full : c.Full
  sides : c.SidesSafe Γ.need Γ.keep

/-- The same of a path whose last branch need not have a key. -/
structure Frame.Sound (Γ : Scope) {d D : ℕ} (c : Ctx (d + 1) D) (g : Frame d) : Prop where
  free : ¬ Γ.keep g.pgid
  left : ∀ k ∈ g.ksL, k.Sound Γ
  right : ∀ k ∈ g.ksR, k.Sound Γ
  above : c.Sound Γ

section Sound

variable {Γ : Scope} {d D : ℕ} {c : Ctx (d + 1) D} {f g : Frame d} {j : Joint} {k t : Tree d}

theorem Frame.Beside.sound (hb : Beside f j g k) (h : (Ctx.under f c).Sound Γ) :
    g.Sound Γ c ∧ k.Sound Γ := by
  obtain ⟨⟨hfree, hfrees⟩, ⟨hfull, hfulls⟩, hL, hR, hsides⟩ := h
  obtain ⟨hk, hkL, hkR⟩ := hb.full hfull
  obtain ⟨hks, hksL, hksR⟩ := hb.safe hL hR
  refine ⟨⟨?_, fun x hx => ⟨hkL x hx, hksL x hx⟩, fun x hx => ⟨hkR x hx, hksR x hx⟩, hfrees,
    hfulls, hsides⟩, hk, hks⟩
  rw [hb.pgid_eq]
  exact hfree

theorem Frame.Sound.free_under (h : g.Sound Γ c) : (Ctx.under g c).Free Γ.keep :=
  ⟨h.free, h.above.free⟩

theorem Frame.Sound.sides_under (h : g.Sound Γ c) : (Ctx.under g c).SidesSafe Γ.need Γ.keep :=
  ⟨fun k hk => (h.left k hk).safe, fun k hk => (h.right k hk).safe, h.above.sides⟩

theorem Frame.Sound.full_under (h : g.Sound Γ c) (hne : g.esL ++ g.esR ≠ []) :
    (Ctx.under g c).Full :=
  ⟨⟨hne, fun k hk => (h.left k hk).full, fun k hk => (h.right k hk).full⟩, h.above.full⟩

/-- The children of a branch with a hole, when the hole is filled. -/
theorem Frame.Sound.kids (h : g.Sound Γ c) (ht : t.Sound Γ) :
    ∀ k ∈ g.ksL ++ t :: g.ksR, k.Sound Γ := by
  intro k hk
  rcases List.mem_append.1 hk with hk | hk
  · exact h.left k hk
  · rcases List.mem_cons.1 hk with rfl | hk
    · exact ht
    · exact h.right k hk

/-- A branch whose children are sound and that has a key. -/
theorem Tree.Sound.branch {p txid : Nat} {es : List Entry} {kids : List (Tree d)}
    {len : kids.length = es.length + 1} (hp : ¬ Γ.keep p) (hes : es ≠ [])
    (hkids : ∀ k ∈ kids, k.Sound Γ) : (Tree.branch p txid es kids len).Sound Γ :=
  ⟨(Tree.full_branch ..).2 ⟨hes, fun k hk => (hkids k hk).full⟩,
    fun k hk => (hkids k hk).safe, fun hkeep => absurd hkeep hp⟩

theorem Frame.Sound.fillTwo {tl tr : Tree d} (h : g.Sound Γ c) (u : Entry) (hl : tl.Sound Γ)
    (hr : tr.Sound Γ) : (g.fillTwo u tl tr).Sound Γ := by
  refine Tree.Sound.branch h.free (by simp) fun k hk => ?_
  rcases List.mem_append.1 hk with hk | hk
  · exact h.left k hk
  · rcases List.mem_cons.1 hk with rfl | hk
    · exact hl
    · rcases List.mem_cons.1 hk with rfl | hk
      · exact hr
      · exact h.right k hk

theorem Tree.Sound.kids {t : Tree (d + 1)} (h : t.Sound Γ) : ∀ k ∈ BranchNodeT.kids t, k.Sound Γ :=
  fun k hk => ⟨h.full.2 k hk, h.safe.1 k hk⟩

/-- A tree in the hole of a path. -/
theorem Ctx.Sound.plug {d D : ℕ} {c : Ctx d D} {t : Tree d} (h : c.Sound Γ) (ht : t.Sound Γ) :
    (c.plug t).Sound Γ :=
  ⟨(c.full_plug t).2 ⟨h.full, ht.full⟩, c.safe_plug t h.free h.sides ht.safe⟩

end Sound

/-! ## `GetSibling` and the copy of the sibling -/

section Sibling

variable {Γ : Scope} {b r : ℕ} {O : Multiset Obj} {s : TxState} {d : ℕ} {f g : Frame d} {j : Joint}
  {k : Tree d} {x : Nat}

/-- **`BTree::GetSibling`.** -/
theorem getSibling_ok (hb : Frame.Beside f j g k) (h : Own Γ b r O s) (hm : f.obj x ∈ O) :
    BTree.getSibling (f.pgid, f.esL.length) s = (.ok (j.left.length, k.pgid, j.isLeft), s) := by
  have hcount : Node.countOf f.pgid s = (.ok (f.esL ++ f.esR).length, s) := h.countOf hm
  unfold BTree.getSibling
  rw [Exec.bind_of_ok hcount]
  cases hb with
  | @right p t esL esR u ksL ksR k lenL lenR lenR' =>
    have hne : ¬ esL.length = (esL ++ u :: esR).length := by
      rw [List.length_append, List.length_cons]
      omega
    have hkid : (ksL.map Tree.pgid ++ x :: (k :: ksR).map Tree.pgid)[esL.length + 1]? =
        some k.pgid := by
      rw [← lenL, ← List.length_map Tree.pgid]
      simp
    show (if esL.length = (esL ++ u :: esR).length then _ else _ : TxM (Nat × Nat × Bool)) s = _
    rw [if_neg hne, Exec.bind_of_ok (h.getRightChild hm hkid)]
    rfl
  | @left p t esL u ksL k lenL lenL' =>
    have heq : (esL ++ [u]).length = (esL ++ [u] ++ []).length := by rw [List.append_nil]
    have hlast : (esL ++ [u] ++ []).length - 1 = esL.length := by simp
    have hkid :
        ((ksL ++ [k]).map Tree.pgid ++ x :: ([] : List (Tree d)).map Tree.pgid)[esL.length]? =
          some k.pgid := by
      rw [← lenL', ← List.length_map Tree.pgid]
      simp
    show (if (esL ++ [u]).length = (esL ++ [u] ++ []).length then _ else _ : TxM (Nat × Nat × Bool))
      s = _
    rw [if_pos heq]
    simp only [hlast]
    rw [Exec.bind_of_ok (h.getLeftChild hm hkid)]
    simp

/-- The sibling is copied when it must not be written, and then entered into the branch. -/
theorem copySibling_ok (hb : Frame.Beside f j g k) (hf : ¬ Γ.keep f.pgid)
    (hsafe : k.Safe Γ.need Γ.keep) (h : Own Γ (b + 1) r (f.obj x ::ₘ .node k.pgid k.view ::ₘ O) s) :
    Exec.Ok (BTree.copySibling Γ.env f.pgid j.left.length k.pgid j.isLeft) s fun q s' => ∃ txid,
      ¬ Γ.keep q ∧ (k.moved q txid).Safe Γ.need Γ.keep ∧
      Own Γ b r (g.two j.separator (j.first x q) (j.second x q) ::ₘ
        .node q (k.moved q txid).view ::ₘ O) s' := by
  have hm : Obj.node k.pgid k.view ∈ f.obj x ::ₘ .node k.pgid k.view ::ₘ O :=
    Multiset.mem_cons_of_mem (Multiset.mem_cons_self _ _)
  obtain ⟨n, hrep, hget, -⟩ := h.read_of_mem hm
  have htxid : n.lastModifiedTxid = k.txid := by
    rw [hrep.txid]
    cases d <;> rfl
  have hneed : BTreeIterator.copyNeeded Γ.env s.metaStruct.txid n.lastModifiedTxid =
      Γ.need k.txid := by
    rw [h.txid_eq, htxid]
    rfl
  unfold BTree.copySibling
  rw [hb.obj_eq] at h
  -- A sibling that need not be copied is none that has to be kept, and may be written as it is.
  cases hcopy : Γ.need k.txid with
  | false =>
    have hkeep := Tree.Safe.not_keep k hsafe hcopy
    refine Exec.Ok.intro k.pgid s ?_ ⟨k.txid, hkeep, Tree.Safe.moved k _ _ hsafe hkeep, ?_⟩
    · rw [Exec.bind_of_ok hget, Exec.read_bind, hneed, hcopy, if_neg (by decide)]
      rfl
    · refine (h.room_mono b (Nat.le_add_right _ _)).perm ?_
      rw [Tree.view_moved, show ({ k.view with txid := k.txid } : NodeView) =
        k.view by cases d <;> rfl]
  | true =>
    obtain ⟨q, s₁, hrun, hq, -, h₁, -⟩ := (h.perm (Multiset.cons_swap _ _ _)).copy
    rw [Multiset.cons_swap] at h₁
    have hg : ¬ Γ.keep g.pgid := by
      rw [hb.pgid_eq]
      exact hf
    have hlen : j.left.length = g.ksL.length := by rw [← hb.left_eq, g.lenL]
    have hmoved : (k.moved q Γ.txid).view = { k.view with txid := Γ.txid } :=
      Tree.view_moved k q Γ.txid
    rw [← hmoved] at h₁
    refine Exec.Ok.of_run_eq (s := s) (t := s₁) (by
      rw [Exec.bind_of_ok hget, Exec.read_bind, hneed, hcopy, if_pos rfl, Exec.bind_of_ok hrun,
        ← hb.pgid_eq, hlen, ← List.length_map Tree.pgid]) ?_
    -- The copy takes the place of the sibling, before or behind the child that is on the path.
    cases hl : j.isLeft with
    | true =>
      rw [Joint.first_left hl, Joint.second_left hl] at h₁
      obtain ⟨s₂, hset, h₂⟩ := h₁.setLeftChild hg q
      refine Exec.Ok.intro q s₂ ?_ ⟨Γ.txid, hq, Tree.Safe.moved k _ _ hsafe hq,
        h₂.perm (by rw [Joint.first_left hl, Joint.second_left hl]; rfl)⟩
      rw [if_pos rfl, Exec.bind_of_ok hset]
      rfl
    | false =>
      rw [Joint.first_right hl, Joint.second_right hl] at h₁
      have h₁' : Own Γ b r (.node g.pgid (.branch g.txid (g.esL ++ j.separator :: g.esR)
          ((g.ksL.map Tree.pgid ++ [x]) ++ k.pgid :: g.ksR.map Tree.pgid)) ::ₘ
            .node q (k.moved q Γ.txid).view ::ₘ O) s₁ :=
        h₁.perm (by rw [List.append_assoc]; rfl)
      obtain ⟨s₂, hset, h₂⟩ := h₁'.setLeftChild hg q
      rw [List.length_append, List.length_singleton] at hset
      refine Exec.Ok.intro q s₂ ?_ ⟨Γ.txid, hq, Tree.Safe.moved k _ _ hsafe hq,
        h₂.perm (by rw [Joint.first_right hl, Joint.second_right hl, List.append_assoc]; rfl)⟩
      rw [if_neg (by decide), Exec.bind_of_ok hset]
      rfl

/-- A tree `t` in the branch `f` of a path and its sibling `k`, which may be written; `g` is the
branch without the two. -/
structure Paired (Γ : Scope) {d D : ℕ} (c : Ctx (d + 1) D) (f : Frame d) (t : Tree d) (j : Joint)
    (g : Frame d) (k : Tree d) : Prop where
  joint_eq : f.level.joint = some j
  pgid_eq : g.pgid = f.pgid
  left_eq : g.esL = j.left
  right_eq : g.esR = j.right
  sibling_eq : k.entries = j.sibling
  writable : ¬ Γ.keep k.pgid
  sound : k.Sound Γ
  around : g.Sound Γ c
  flat_eq : (Ctx.under f c).before ++ t.flat ++ (Ctx.under f c).after = (Ctx.under g c).before ++
    ((j.first t k).flat ++ .separator j.separator.key :: (j.second t k).flat) ++
      (Ctx.under g c).after

/-- **The sibling of a tree**, found and made writable. -/
theorem takeSibling_ok {D : ℕ} {c : Ctx (d + 1) D} {t : Tree d} (hsound : (Ctx.under f c).Sound Γ)
    (h : Own Γ (b + 1) r (t.objs + ((Ctx.under f c).objs t.pgid + O)) s) :
    ∃ j g k s', Paired Γ c f t j g k ∧
      Own Γ b r (g.two j.separator (j.first t k).pgid (j.second t k).pgid ::ₘ
        (t.objs + k.objs + (g.sideObjs + c.objs g.pgid + O))) s' ∧
      ∀ {α : Type} (rest : Nat → Nat → Bool → TxM α), (do
        let (slotId, sibling, leftSibling) ← BTree.getSibling (f.pgid, f.esL.length)
        let sibling ← BTree.copySibling Γ.env f.pgid slotId sibling leftSibling
        rest slotId sibling leftSibling : TxM α) s = rest g.esL.length k.pgid j.isLeft s' := by
  obtain ⟨j, g, k, -, hb⟩ := f.exists_beside hsound.full.1.1
  obtain ⟨hg, hk⟩ := hb.sound hsound
  have h₀ : Own Γ (b + 1) r (f.obj t.pgid ::ₘ .node k.pgid k.view ::ₘ
      (k.below + g.sideObjs + c.objs f.pgid + t.objs + O)) s := by
    refine h.perm ?_
    rw [Ctx.objs, hb.sideObjs_eq, k.objs_eq]
    simp only [← Multiset.singleton_add]
    abel
  have hsibling := getSibling_ok hb h₀ (Multiset.mem_cons_self _ _)
  -- The copy has the contents of the sibling, so `k` may be replaced by it throughout.
  obtain ⟨q, s', hcopy, txid, hq, hsafe, h'⟩ := copySibling_ok hb hsound.free.1 hk.safe h₀
  have hfirst : (j.first t (k.moved q txid)).pgid = j.first t.pgid q := by
    unfold Joint.first
    split <;> simp
  have hsecond : (j.second t (k.moved q txid)).pgid = j.second t.pgid q := by
    unfold Joint.second
    split <;> simp
  have hflat : (j.first t (k.moved q txid)).flat = (j.first t k).flat ∧
      (j.second t (k.moved q txid)).flat = (j.second t k).flat := by
    unfold Joint.first Joint.second
    split <;> simp
  refine ⟨j, g, k.moved q txid, s',
    ⟨hb.joint_eq, hb.pgid_eq, hb.left_eq, hb.right_eq, ?_, ?_, ?_, hg, ?_⟩, ?_, fun rest => ?_⟩
  · rw [Tree.entries_moved]
    exact hb.sibling_eq
  · rwa [Tree.pgid_moved]
  · exact ⟨(Tree.full_moved ..).2 hk.full, hsafe⟩
  · rw [hflat.1, hflat.2, Ctx.before, Ctx.after, Ctx.before, Ctx.after]
    have := congrArg (fun l => c.before ++ l ++ c.after) (hb.flat_eq t)
    simpa using this
  · rw [hfirst, hsecond, Tree.objs_eq (k.moved q txid), Tree.pgid_moved,
      Tree.below_moved, hb.pgid_eq]
    refine h'.perm ?_
    simp only [← Multiset.singleton_add]
    abel
  · rw [Exec.bind_of_ok hsibling, Tree.pgid_moved, hb.left_eq]
    exact Exec.bind_of_ok hcopy

end Sibling

end AtomKV
