import AtomKV.Records
import AtomKV.Lib.Compare
import AtomKV.Lib.Weave

/-!
# Trees

The abstract B+tree. `Tree d` is a tree whose leaves all lie `d` levels below its root. Its
in-order sequence `Tree.flat` lists the records of the leaves and the separators of the branches;
the search order of a tree is one condition on this sequence, which splits, merges and moves of
whole nodes do not touch.

`Ctx d D` is a tree of depth `D` with a hole at depth `d`: the branches on a path with their other
children. It is what an operation at a leaf sees of the tree above it.
-/

set_option autoImplicit false

namespace AtomKV

/-! ## The in-order sequence -/

/-- A member of the in-order sequence. -/
inductive Item where
  | record (data : Bytes × Bytes × Bool)
  | separator (key : Bytes)
  deriving DecidableEq

namespace Item

def key : Item → Bytes
  | .record data => data.1
  | .separator key => key

/-- The order of the sequence: a record lies below the separators to its right, and not below those
to its left. -/
def Below (cmp : Bytes → Bytes → Ordering) : Item → Item → Prop
  | .separator a, .record b => cmp b.1 a ≠ .lt
  | x, y => cmp x.key y.key = .lt

instance (cmp : Bytes → Bytes → Ordering) : DecidableRel (Below cmp)
  | .separator _, .record _ => inferInstanceAs (Decidable (_ ≠ _))
  | .separator _, .separator _ => inferInstanceAs (Decidable (_ = _))
  | .record _, .record _ => inferInstanceAs (Decidable (_ = _))
  | .record _, .separator _ => inferInstanceAs (Decidable (_ = _))

/-- The item lies to the left of where `k` belongs. -/
def Low (cmp : Bytes → Bytes → Ordering) (k : Bytes) : Item → Prop
  | .record a => cmp a.1 k = .lt
  | .separator a => cmp k a ≠ .lt

/-- The item lies to the right of where `k` belongs. -/
def High (cmp : Bytes → Bytes → Ordering) (k : Bytes) (x : Item) : Prop := cmp k x.key = .lt

variable {cmp : Bytes → Bytes → Ordering} {k : Bytes} {x y : Item} {a : Bytes}

section Trans

variable [Std.TransCmp cmp]

/-- Everything to the left of a separator that is not above `k` is low. -/
theorem Low.of_below_separator (h : Below cmp x (.separator a)) (ha : cmp k a ≠ .lt) :
    Low cmp k x := by
  cases x with
  | record d => exact Compare.lt_of_lt_of_le h ha
  | separator b => exact fun hk => ha (Compare.lt_trans hk h)

/-- Everything to the right of a separator above `k` is high. -/
theorem High.of_separator_below (h : Below cmp (.separator a) y) (ha : cmp k a = .lt) :
    High cmp k y := by
  cases y with
  | record d => exact Compare.lt_of_lt_of_le ha h
  | separator b => exact Compare.lt_trans ha h

end Trans

/-- A record for `k` goes above the low items. -/
theorem Low.below_record (h : Low cmp k x) (v : Bytes) (b : Bool) :
    Below cmp x (.record (k, v, b)) := by
  cases x with
  | record d => exact h
  | separator a => exact h

/-- A record for `k` goes below the high items. -/
theorem High.record_below (h : High cmp k x) (v : Bytes) (b : Bool) :
    Below cmp (.record (k, v, b)) x := by
  cases x <;> exact h

end Item

/-- The records of an in-order sequence. -/
def records (items : List Item) : List (Bytes × Bytes × Bool) :=
  items.filterMap fun
    | .record data => some data
    | .separator _ => none

@[simp] theorem records_nil : records [] = [] := rfl

@[simp] theorem records_append (l₁ l₂ : List Item) :
    records (l₁ ++ l₂) = records l₁ ++ records l₂ := by
  simp [records]

@[simp] theorem records_cons_record (d : Bytes × Bytes × Bool) (l : List Item) :
    records (.record d :: l) = d :: records l := rfl

@[simp] theorem records_cons_separator (k : Bytes) (l : List Item) :
    records (.separator k :: l) = records l := rfl

/-- The items of a leaf. -/
def recordItems (es : List Entry) : List Item := es.map fun e => .record e.data

/-- The items that the keys of a branch stand for. -/
def separatorItems (es : List Entry) : List Item := es.map fun e => .separator e.key

@[simp] theorem recordItems_nil : recordItems [] = [] := rfl

@[simp] theorem recordItems_cons (e : Entry) (es : List Entry) :
    recordItems (e :: es) = .record e.data :: recordItems es := rfl

@[simp] theorem recordItems_append (es es' : List Entry) :
    recordItems (es ++ es') = recordItems es ++ recordItems es' := List.map_append ..

@[simp] theorem separatorItems_nil : separatorItems [] = [] := rfl

@[simp] theorem separatorItems_cons (e : Entry) (es : List Entry) :
    separatorItems (e :: es) = .separator e.key :: separatorItems es := rfl

@[simp] theorem separatorItems_append (es es' : List Entry) :
    separatorItems (es ++ es') = separatorItems es ++ separatorItems es' := List.map_append ..

@[simp] theorem length_separatorItems (es : List Entry) : (separatorItems es).length = es.length :=
  List.length_map ..

@[simp] theorem records_recordItems (es : List Entry) :
    records (recordItems es) = es.map Entry.data := by
  induction es with
  | nil => rfl
  | cons e es ih => rw [recordItems_cons, records_cons_record, ih, List.map_cons]

theorem SameData.recordItems_eq {es es' : List Entry} (h : SameData es es') :
    recordItems es = recordItems es' := by
  have key : ∀ es : List Entry, recordItems es = (es.map Entry.data).map Item.record := fun es => by
    rw [List.map_map]
    rfl
  rw [key, key, h]

theorem SameContent.separatorItems_eq {es es' : List Entry} (h : SameContent es es') :
    separatorItems es = separatorItems es' := by
  have key : ∀ es : List Entry,
      separatorItems es = (es.map Entry.content).map fun c => Item.separator c.1 := fun es => by
    rw [List.map_map]
    rfl
  rw [key, key, h]

/-! ## Trees -/

/-- A leaf. -/
structure LeafNodeT where
  pgid : Nat
  txid : Nat
  entries : List Entry

/-- A branch over subtrees `α`. -/
structure BranchNodeT (α : Type) where
  pgid : Nat
  txid : Nat
  entries : List Entry
  kids : List α
  len : kids.length = entries.length + 1

/-- Trees of depth `d`. -/
def Tree : ℕ → Type
  | 0 => LeafNodeT
  | d + 1 => BranchNodeT (Tree d)

namespace Tree

/-- The page of the root. -/
def pgid : {d : ℕ} → Tree d → Nat
  | 0, t => LeafNodeT.pgid t
  | _ + 1, t => BranchNodeT.pgid t

/-- The transaction that wrote the root. -/
def txid : {d : ℕ} → Tree d → Nat
  | 0, t => LeafNodeT.txid t
  | _ + 1, t => BranchNodeT.txid t

/-- A leaf as a tree. -/
def leaf (pgid txid : Nat) (es : List Entry) : Tree 0 := (⟨pgid, txid, es⟩ : LeafNodeT)

/-- A branch as a tree. -/
def branch {d : ℕ} (pgid txid : Nat) (es : List Entry) (kids : List (Tree d))
    (len : kids.length = es.length + 1) : Tree (d + 1) :=
  (⟨pgid, txid, es, kids, len⟩ : BranchNodeT (Tree d))

/-- The nodes of the tree. -/
def objs : {d : ℕ} → Tree d → Multiset Obj
  | 0, t => {Obj.node (LeafNodeT.pgid t) (.leaf (LeafNodeT.txid t) (LeafNodeT.entries t))}
  | d + 1, t =>
      Obj.node (BranchNodeT.pgid t)
          (.branch (BranchNodeT.txid t) (BranchNodeT.entries t)
            ((BranchNodeT.kids t).map (pgid (d := d)))) ::ₘ
        ((BranchNodeT.kids t).map (objs (d := d))).sum

/-- The in-order sequence. -/
def flat : {d : ℕ} → Tree d → List Item
  | 0, t => recordItems (LeafNodeT.entries t)
  | d + 1, t => weave ((BranchNodeT.kids t).map (flat (d := d)))
      (separatorItems (BranchNodeT.entries t))

/-- No leaf is empty and every branch has a key. -/
def Full : {d : ℕ} → Tree d → Prop
  | 0, t => LeafNodeT.entries t ≠ []
  | d + 1, t => BranchNodeT.entries t ≠ [] ∧ ∀ k ∈ BranchNodeT.kids t, Full (d := d) k

/-- The root may be an empty leaf. -/
def RootFull : {d : ℕ} → Tree d → Prop
  | 0, _ => True
  | d + 1, t => Full (d := d + 1) t

/-- Below a protected page every page still has to be copied before it is written. -/
def Safe (need : Nat → Bool) (keep : Nat → Prop) : {d : ℕ} → Tree d → Prop
  | 0, t => keep (LeafNodeT.pgid t) → need (LeafNodeT.txid t) = true
  | d + 1, t =>
      (∀ k ∈ BranchNodeT.kids t, Safe need keep (d := d) k) ∧
        (keep (BranchNodeT.pgid t) → need (BranchNodeT.txid t) = true ∧
          ∀ k ∈ BranchNodeT.kids t, AllNeed need (d := d) k)
where
  /-- Every page of the tree has to be copied before it is written. -/
  AllNeed (need : Nat → Bool) : {d : ℕ} → Tree d → Prop
    | 0, t => need (LeafNodeT.txid t) = true
    | d + 1, t => need (BranchNodeT.txid t) = true ∧
        ∀ k ∈ BranchNodeT.kids t, AllNeed need (d := d) k

/-- The records, from left to right. -/
def contents {d : ℕ} (t : Tree d) : List (Bytes × Bytes × Bool) := records t.flat

section Constructors

variable {d : ℕ} (p txid : Nat) (es : List Entry) (kids : List (Tree d))
  (len : kids.length = es.length + 1)

theorem exists_leaf (t : Tree 0) : ∃ p txid es, t = leaf p txid es := ⟨_, _, _, rfl⟩

theorem exists_branch (t : Tree (d + 1)) : ∃ p txid es kids len, t = branch p txid es kids len :=
  ⟨_, _, _, _, _, rfl⟩

@[simp] theorem pgid_leaf : (leaf p txid es).pgid = p := rfl

@[simp] theorem pgid_branch : (branch p txid es kids len).pgid = p := rfl

@[simp] theorem objs_leaf : (leaf p txid es).objs = {Obj.node p (.leaf txid es)} := rfl

@[simp] theorem objs_branch : (branch p txid es kids len).objs =
    Obj.node p (.branch txid es (kids.map pgid)) ::ₘ (kids.map objs).sum := rfl

@[simp] theorem flat_leaf : (leaf p txid es).flat = recordItems es := rfl

@[simp] theorem flat_branch :
    (branch p txid es kids len).flat = weave (kids.map flat) (separatorItems es) := rfl

@[simp] theorem full_leaf : (leaf p txid es).Full ↔ es ≠ [] := Iff.rfl

@[simp] theorem full_branch :
    (branch p txid es kids len).Full ↔ es ≠ [] ∧ ∀ k ∈ kids, k.Full := Iff.rfl

theorem mem_sum_objs {kids : List (Tree d)} {o : Obj} :
    o ∈ (kids.map objs).sum ↔ ∃ k ∈ kids, o ∈ k.objs := by
  induction kids with
  | nil => simp
  | cons k ks ih => simp [ih]

theorem exists_root (t : Tree d) : ∃ v, Obj.node t.pgid v ∈ t.objs := by
  cases d with
  | zero => exact ⟨_, Multiset.mem_singleton_self _⟩
  | succ d => exact ⟨_, Multiset.mem_cons_self _ _⟩

end Constructors

/-- The search order. -/
def Ordered (cmp : Bytes → Bytes → Ordering) {d : ℕ} (t : Tree d) : Prop :=
  t.flat.Pairwise (Item.Below cmp)

end Tree

/-! ## Paths -/

/-- A branch without one of its children. -/
structure Frame (d : ℕ) where
  pgid : Nat
  txid : Nat
  esL : List Entry
  ksL : List (Tree d)
  esR : List Entry
  ksR : List (Tree d)
  lenL : ksL.length = esL.length
  lenR : ksR.length = esR.length

namespace Frame

variable {d : ℕ}

/-- The branch with the child `t`. -/
def fill (f : Frame d) (t : Tree d) : Tree (d + 1) :=
  .branch f.pgid f.txid (f.esL ++ f.esR) (f.ksL ++ t :: f.ksR) (by
    have := f.lenL
    have := f.lenR
    simp only [List.length_append, List.length_cons]
    omega)

/-- The items to the left of the hole. -/
def before (f : Frame d) : List Item := weavePre (f.ksL.map Tree.flat) (separatorItems f.esL)

/-- The items to the right of the hole. -/
def after (f : Frame d) : List Item := weavePost (separatorItems f.esR) (f.ksR.map Tree.flat)

/-- The node of the branch, when the page `hole` is in the hole. -/
def obj (f : Frame d) (hole : Nat) : Obj :=
  .node f.pgid
    (.branch f.txid (f.esL ++ f.esR) (f.ksL.map Tree.pgid ++ hole :: f.ksR.map Tree.pgid))

/-- The nodes of the other children. -/
def sideObjs (f : Frame d) : Multiset Obj :=
  (f.ksL.map Tree.objs).sum + (f.ksR.map Tree.objs).sum

def Full (f : Frame d) : Prop :=
  f.esL ++ f.esR ≠ [] ∧ (∀ k ∈ f.ksL, k.Full) ∧ ∀ k ∈ f.ksR, k.Full

theorem flat_fill (f : Frame d) (t : Tree d) :
    (f.fill t).flat = f.before ++ (t.flat ++ f.after) := by
  have h := weave_around (f.ksL.map Tree.flat) t.flat (f.ksR.map Tree.flat) (separatorItems f.esL)
    (separatorItems f.esR) (by simpa using f.lenL)
  rw [← separatorItems_append] at h
  show weave ((f.ksL ++ t :: f.ksR).map Tree.flat) (separatorItems (f.esL ++ f.esR)) = _
  rw [List.map_append, List.map_cons]
  exact h

theorem objs_fill (f : Frame d) (t : Tree d) :
    (f.fill t).objs = f.obj t.pgid ::ₘ (f.sideObjs + t.objs) := by
  show Obj.node f.pgid (.branch f.txid (f.esL ++ f.esR) ((f.ksL ++ t :: f.ksR).map Tree.pgid)) ::ₘ
    ((f.ksL ++ t :: f.ksR).map Tree.objs).sum = _
  rw [List.map_append, List.map_append, List.map_cons, List.map_cons,
    List.sum_append, List.sum_cons]
  unfold obj sideObjs
  congr 1
  abel

theorem full_fill (f : Frame d) (t : Tree d) : (f.fill t).Full ↔ f.Full ∧ t.Full := by
  show (f.esL ++ f.esR ≠ [] ∧ ∀ k ∈ f.ksL ++ t :: f.ksR, k.Full) ↔ _
  unfold Full
  simp only [List.mem_append, List.mem_cons]
  constructor
  · rintro ⟨h1, h2⟩
    exact ⟨⟨h1, fun k hk => h2 k (.inl hk), fun k hk => h2 k (.inr (.inr hk))⟩,
      h2 t (.inr (.inl rfl))⟩
  · rintro ⟨⟨h1, h2, h3⟩, h4⟩
    refine ⟨h1, fun k hk => ?_⟩
    rcases hk with hk | rfl | hk
    · exact h2 k hk
    · exact h4
    · exact h3 k hk

end Frame

/-- A tree of depth `D` with a hole for a tree of depth `d`. -/
inductive Ctx : ℕ → ℕ → Type where
  | top {D : ℕ} : Ctx D D
  | under {d D : ℕ} (f : Frame d) (c : Ctx (d + 1) D) : Ctx d D

namespace Ctx

/-- The tree with `t` in the hole. -/
def plug : {d D : ℕ} → Ctx d D → Tree d → Tree D
  | _, _, .top, t => t
  | _, _, .under f c, t => c.plug (f.fill t)

/-- The part of the iterator's stack that belongs to the path above the hole. -/
def stack : {d D : ℕ} → Ctx d D → List (Nat × Nat)
  | _, _, .top => []
  | _, _, .under f c => (f.pgid, f.esL.length) :: c.stack

def before : {d D : ℕ} → Ctx d D → List Item
  | _, _, .top => []
  | _, _, .under f c => c.before ++ f.before

def after : {d D : ℕ} → Ctx d D → List Item
  | _, _, .top => []
  | _, _, .under f c => f.after ++ c.after

/-- The nodes of the tree outside of the hole, when the page `hole` is in the hole. -/
def objs : {d D : ℕ} → Ctx d D → Nat → Multiset Obj
  | _, _, .top, _ => 0
  | _, _, .under f c, hole => f.obj hole ::ₘ (f.sideObjs + c.objs f.pgid)

/-- The page of the root, when the page `hole` is in the hole. -/
def rootId : {d D : ℕ} → Ctx d D → Nat → Nat
  | _, _, .top, hole => hole
  | _, _, .under f c, _ => c.rootId f.pgid

def Full : {d D : ℕ} → Ctx d D → Prop
  | _, _, .top => True
  | _, _, .under f c => f.Full ∧ c.Full

theorem flat_plug {d D : ℕ} (c : Ctx d D) (t : Tree d) :
    (c.plug t).flat = c.before ++ (t.flat ++ c.after) := by
  induction c with
  | top => simp [plug, before, after]
  | under f c ih => simp [plug, before, after, ih, f.flat_fill]

theorem objs_plug {d D : ℕ} (c : Ctx d D) (t : Tree d) :
    (c.plug t).objs = c.objs t.pgid + t.objs := by
  induction c with
  | top => simp [plug, objs]
  | under f c ih =>
    rw [plug, ih, f.objs_fill, objs]
    show c.objs f.pgid + _ = _
    simp only [← Multiset.singleton_add]
    abel

theorem mem_objs_plug {d D : ℕ} (c : Ctx d D) {t : Tree d} {o : Obj} (h : o ∈ t.objs) :
    o ∈ (c.plug t).objs := by
  rw [objs_plug]
  exact Multiset.mem_add.2 (.inr h)

theorem pgid_plug {d D : ℕ} (c : Ctx d D) (t : Tree d) : (c.plug t).pgid = c.rootId t.pgid := by
  induction c with
  | top => rfl
  | under f c ih => exact ih (f.fill t)

theorem full_plug {d D : ℕ} (c : Ctx d D) (t : Tree d) : (c.plug t).Full ↔ c.Full ∧ t.Full := by
  induction c with
  | top => simp [plug, Full]
  | under f c ih =>
    rw [plug, ih, f.full_fill, Full]
    tauto

/-- Below the root nothing is special about emptiness. -/
theorem rootFull_under {d D : ℕ} (f : Frame d) (c : Ctx (d + 1) D) (t : Tree d) :
    ((Ctx.under f c).plug t).RootFull ↔ (Ctx.under f c).Full ∧ t.Full := by
  rw [← full_plug]
  have key : ∀ {d D : ℕ} (c : Ctx (d + 1) D) (u : Tree (d + 1)), (c.plug u).RootFull ↔
      (c.plug u).Full := by
    intro d D c u
    cases D with
    | zero =>
      exfalso
      have : ∀ {a b : ℕ}, Ctx a b → a ≤ b := fun c => by
        induction c with
        | top => exact Nat.le_refl _
        | under f c ih => exact Nat.le_of_succ_le ih
      exact absurd (this c) (by omega)
    | succ D => exact Iff.rfl
  exact key c (f.fill t)

theorem length_stack {d D : ℕ} (c : Ctx d D) : c.stack.length + d = D := by
  induction c with
  | top => simp [stack]
  | under f c ih =>
    rw [stack, List.length_cons]
    omega

end Ctx

end AtomKV
