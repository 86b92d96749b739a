import AtomKV.DeletionLaw
import AtomKV.Overwrite
import Mathlib.Tactic.Ring

/-!
# Trees of slim records

Keys that take up to a tenth of a page, in records that lie in their leaf. On a tree of such records
the insertion law holds for every new one, and the deletion law for every key but that of a live
sub-bucket: the half of a branch always has room for one more key, two branches that are merged fit
into one, and no separator has overflow pages. How many pages a call can take then depends on the
depth of the tree alone.
-/

set_option autoImplicit false

namespace AtomKV

/-! ## Slim records -/

/-- The key and its slot take up to a tenth of a page. -/
def SlimKey (P : Nat) (key : Bytes) : Prop := 10 * (8 + key.length) ≤ P - 18

instance (P : Nat) (key : Bytes) : Decidable (SlimKey P key) := inferInstanceAs (Decidable (_ ≤ _))

/-- A record with such a key that has no overflow pages. -/
def SlimRecord (P : Nat) (key value : Bytes) : Prop :=
  SlimKey P key ∧ key.length + value.length ≤ Node.maxInline P

instance (P : Nat) (key value : Bytes) : Decidable (SlimRecord P key value) :=
  inferInstanceAs (Decidable (_ ∧ _))

def Item.Slim (P : Nat) : Item → Prop
  | .record d => SlimRecord P d.1 d.2.1
  | .separator key => SlimKey P key

namespace Shape

/-- All records and separators are slim. -/
def Slim (P : Nat) (t : Shape) : Prop := ∀ x ∈ t.flat, x.Slim P

end Shape

/-- The entry of a branch. -/
structure Entry.Separates (P : Nat) (e : Entry) : Prop where
  key : SlimKey P e.key
  value : e.value = []

/-- The entry of a leaf. -/
def Entry.Slim (P : Nat) (e : Entry) : Prop := SlimRecord P e.key e.value

section Sizes

variable {P : Nat} {key value : Bytes} {e : Entry} {es : List Entry}

theorem SlimKey.nil (hP : PageRange P) : SlimKey P [] := by
  have hmin := hP.min
  unfold SlimKey
  rw [List.length_nil]
  omega

theorem SlimKey.le_maxInline (hP : PageRange P) (h : SlimKey P key) :
    key.length ≤ Node.maxInline P := by
  have hmin := hP.min
  unfold SlimKey at h
  unfold Node.maxInline
  omega

theorem SlimKey.stub (hP : PageRange P) (h : SlimKey P key) : recordStub P key [] = key.length := by
  have hle := h.le_maxInline hP
  unfold recordStub Node.stubSize
  rw [List.length_nil, Nat.add_zero, if_neg (Nat.not_lt.2 hle)]

theorem SlimKey.record (hP : PageRange P) (h : SlimKey P key) : SlimRecord P key [] := by
  refine ⟨h, ?_⟩
  rw [List.length_nil, Nat.add_zero]
  exact h.le_maxInline hP

theorem SlimRecord.admissible (hP : PageRange P) (h : SlimRecord P key value) :
    Admissible P key value := by
  have hmin := hP.min
  have hmax := hP.lt_max
  obtain ⟨hkey, hsize⟩ := h
  unfold SlimKey at hkey
  unfold Node.maxInline at hsize
  refine ⟨?_, ?_, ?_⟩
  · show key.length ≤ P
    omega
  · show key.length ≤ kKeyMaxSize
    unfold kKeyMaxSize
    omega
  · show value.length ≤ kValueMaxSize
    unfold kValueMaxSize
    omega

theorem SlimRecord.pages_eq (h : SlimRecord P key value) : recordPages P key value = 0 := by
  unfold recordPages Entry.pages
  exact if_neg (Nat.not_lt.2 h.2)

theorem Entry.Slim.not_overflow (h : e.Slim P) : ¬ Node.maxInline P < e.size := Nat.not_lt.2 h.2

theorem Entry.Separates.slim (hP : PageRange P) (h : e.Separates P) : e.Slim P := by
  unfold Entry.Slim
  rw [h.value]
  exact h.key.record hP

theorem Entry.Separates.stub_eq (hP : PageRange P) (h : e.Separates P) :
    e.stub P = e.key.length := by
  rw [Entry.stub_eq, h.value]
  exact h.key.stub hP

theorem entriesPages_slim (h : ∀ e ∈ es, e.Slim P) : entriesPages P es = 0 := by
  refine List.sum_eq_zero fun n hn => ?_
  obtain ⟨e, he, rfl⟩ := List.mem_map.1 hn
  exact (h e he).pages_eq

theorem entriesPages_separators (hP : PageRange P) (h : ∀ e ∈ es, e.Separates P) :
    entriesPages P es = 0 :=
  entriesPages_slim fun e he => (h e he).slim hP

end Sizes

/-! ## The way up of an insertion -/

/-- The keys of a branch to the left and to the right of a path. -/
structure SlimLevel (P : Nat) (l : List Entry × List Entry) : Prop where
  separates : ∀ e ∈ l.1 ++ l.2, e.Separates P
  fill : fill P (l.1 ++ l.2) ≤ P - 18

section Rise

variable {P : Nat} {key : Bytes} {es : List Entry} {levels : List (List Entry × List Entry)}

/-- What a split moves to the right half is at most half a page and one key. -/
theorem fill_drop_splitCount (hP : PageRange P) (used : ℕ) (hes : ∀ e ∈ es, e.Separates P)
    (htotal : used + fill P es ≤ P - 18) (hused : 2 * used ≤ P - 18) :
    10 * fill P (es.drop (splitCount P used es)) ≤ 6 * (P - 18) := by
  induction es generalizing used with
  | nil =>
    rw [List.drop_nil, fill_nil]
    omega
  | cons e es ih =>
    obtain ⟨he, hes⟩ := List.forall_mem_cons.1 hes
    have hkey := he.key
    unfold SlimKey at hkey
    rw [fill_cons, he.stub_eq hP] at htotal
    rw [splitCount, he.stub_eq hP]
    by_cases hhalf : 2 * (used + (8 + e.key.length)) ≤ P - 18
    · rw [if_pos hhalf, List.drop_succ_cons]
      exact ih (used + (8 + e.key.length)) hes (by omega) hhalf
    · rw [if_neg hhalf, List.drop_zero, fill_cons, he.stub_eq hP]
      omega

/-- No split has to take its second try. -/
theorem not_splitRefuses (hP : PageRange P) (hes : ∀ e ∈ es, e.Separates P)
    (hfill : fill P es ≤ P - 18) (hkey : SlimKey P key) (i : ℕ) : ¬ SplitRefuses P es i key := by
  rintro ⟨-, hfull⟩
  have hrest := fill_drop_splitCount hP 0 hes (by omega) (by omega)
  have hstub := hkey.stub hP
  unfold SlimKey at hkey
  unfold Fits at hfull
  omega

/-- The key at some place, after a slim one has come in. -/
theorem slim_getD_insertIdx (hP : PageRange P) (hes : ∀ e ∈ es, SlimKey P e.key)
    (hkey : SlimKey P key) {i : ℕ} (hi : i ≤ es.length) (n : ℕ) :
      SlimKey P (((es.map Entry.key).insertIdx i key).getD n []) := by
  rw [List.getD_eq_getElem?_getD]
  cases hn : ((es.map Entry.key).insertIdx i key)[n]? with
  | none => exact .nil hP
  | some k =>
    have hmem := List.mem_of_getElem? hn
    rw [List.mem_insertIdx (by rwa [List.length_map])] at hmem
    rcases hmem with rfl | hmem
    · exact hkey
    · obtain ⟨e, he, rfl⟩ := List.mem_map.1 hmem
      exact hes e he

theorem risesCleanly_of_slim (hP : PageRange P) (hlevels : ∀ l ∈ levels, SlimLevel P l)
    (hkey : SlimKey P key) : RisesCleanly P levels key := by
  induction levels generalizing key with
  | nil => trivial
  | cons l levels ih =>
    obtain ⟨hl, hrest⟩ := List.forall_mem_cons.1 hlevels
    obtain ⟨A, B⟩ := l
    refine .inr ⟨not_splitRefuses hP hl.separates hl.fill hkey A.length, ih hrest ?_⟩
    refine slim_getD_insertIdx hP (fun e he => (hl.separates e he).key) hkey ?_ _
    rw [List.length_append]
    exact Nat.le_add_right _ _

theorem levelsRoom_slim (hP : PageRange P) (hlevels : ∀ l ∈ levels, SlimLevel P l) :
    levelsRoom P levels = 2 * levels.length + 2 := by
  induction levels with
  | nil => rfl
  | cons l levels ih =>
    obtain ⟨hl, hrest⟩ := List.forall_mem_cons.1 hlevels
    obtain ⟨A, B⟩ := l
    have hpages : entriesPages P (A ++ B) = 0 := entriesPages_separators hP hl.separates
    rw [levelsRoom, hpages, ih hrest, List.length_cons]
    omega

end Rise

/-! ## The way up of a deletion -/

/-- A branch on the path, with the children next to the path. -/
structure SlimSide (P : Nat) (Q : Entry → Prop) (l : Level) : Prop where
  keys : SlimLevel P l.keys
  ne : l.left ++ l.right ≠ []
  kids : ∀ e ∈ l.leftKid ++ l.rightKid, Q e

/-- In a branch with a key there is a sibling. -/
theorem Level.exists_joint {l : Level} (hne : l.left ++ l.right ≠ []) :
    ∃ j, l.joint = some j ∧ l.left ++ l.right = j.left ++ j.separator :: j.right ∧
      ∀ e ∈ j.sibling, e ∈ l.leftKid ++ l.rightKid := by
  obtain ⟨left, right, leftKid, rightKid⟩ := l
  unfold Level.joint
  cases right with
  | cons u right => exact ⟨_, rfl, rfl, fun e he => List.mem_append_right _ he⟩
  | nil =>
    have hleft : left ≠ [] := by simpa using hne
    obtain ⟨left, u, rfl⟩ := (List.eq_nil_or_concat' left).resolve_left hleft
    exact ⟨⟨left, u, [], leftKid, true⟩, by simp, by simp, fun e he => List.mem_append_left _ he⟩

section Mend

variable {P : Nat} {Q : Entry → Prop} {key : Bytes} {es : List Entry} {l : Level}
  {j : Joint} {above : List Level}

theorem SlimSide.levels (habove : ∀ l ∈ above, SlimSide P Q l) :
    ∀ k ∈ above.map Level.keys, SlimLevel P k := by
  intro k hk
  obtain ⟨l, hl, rfl⟩ := List.mem_map.1 hk
  exact (habove l hl).keys

/-- The branch without the separator between the two children. -/
theorem SlimSide.joined (h : SlimSide P Q l)
    (hj : l.left ++ l.right = j.left ++ j.separator :: j.right) :
    SlimLevel P (j.left, j.right) ∧ j.separator.Separates P := by
  have hkeys : ∀ e ∈ j.left ++ j.separator :: j.right, e.Separates P := hj ▸ h.keys.separates
  have hfill : fill P (j.left ++ j.separator :: j.right) ≤ P - 18 := hj ▸ h.keys.fill
  have hsub : (j.left ++ j.right).Sublist (j.left ++ j.separator :: j.right) :=
    List.Sublist.append_left (List.sublist_cons_self _ _) _
  refine ⟨⟨fun e he => hkeys e (hsub.subset he), ?_⟩, hkeys _ (by simp)⟩
  show fill P (j.left ++ j.right) ≤ P - 18
  rw [fill_append, fill_cons] at hfill
  rw [fill_append]
  omega

/-- The parent takes a slim key in the place of the separator. -/
theorem SlimSide.takes (hP : PageRange P) (h : SlimSide P Q l)
    (hj : l.left ++ l.right = j.left ++ j.separator :: j.right)
    {levels : List (List Entry × List Entry)} (hlevels : ∀ k ∈ levels, SlimLevel P k)
    (hkey : SlimKey P key) : j.Takes P levels key := by
  obtain ⟨hjoined, hseparator⟩ := h.joined hj
  unfold Joint.Takes
  split_ifs
  · exact (hseparator.slim hP).not_overflow
  · exact risesCleanly_of_slim hP (List.forall_mem_cons.2 ⟨hjoined, hlevels⟩) hkey

theorem slim_getD_key (hP : PageRange P) {o : Option Entry} (h : ∀ e ∈ o, SlimKey P e.key) :
    SlimKey P ((o.map Entry.key).getD []) := by
  cases o with
  | none => exact .nil hP
  | some e => exact h e rfl

/-- Two branches that are balanced by a merge fit into one. -/
theorem merges_of_slim (hP : PageRange P) (hshort : 5 * fill P es < 2 * (P - 18))
    (hseparator : j.separator.Separates P) (hsibling : ∀ e ∈ j.sibling, e.Separates P)
    (hlends : ¬ j.Lends P) : j.Merges P es := by
  have hstub : recordStub P j.separator.key [] = j.separator.key.length := hseparator.key.stub hP
  have hkey := hseparator.key
  have hfill : 2 * fill P j.sibling ≤ P - 18 := by
    by_contra hrich
    -- a single key does not take half a page
    have hone : j.sibling.length < 2 := by
      by_contra htwo
      exact hlends ⟨Nat.lt_of_not_le hrich, Nat.le_of_not_lt htwo⟩
    cases hsib : j.sibling with
    | nil =>
      rw [hsib, fill_nil] at hrich
      omega
    | cons u rest =>
      have hu := hsibling u (hsib ▸ List.mem_cons_self)
      have hslim := hu.key
      rw [hsib, List.length_cons] at hone
      obtain rfl : rest = [] := List.length_eq_zero_iff.1 (by omega)
      rw [hsib, fill_cons, hu.stub_eq hP, fill_nil] at hrich
      unfold SlimKey at hslim
      omega
  unfold SlimKey at hkey
  unfold Joint.Merges
  omega

/-- **The way up of a deletion goes well.** -/
theorem mends_of_slim (hP : PageRange P) (habove : ∀ l ∈ above, SlimSide P (Entry.Separates P) l)
    (es : List Entry) : Mends P above es := by
  induction above generalizing es with
  | nil => trivial
  | cons l above ih =>
    obtain ⟨hl, hrest⟩ := List.forall_mem_cons.1 habove
    obtain ⟨j, hjoint, hj, hsib⟩ := Level.exists_joint hl.ne
    have hsibling : ∀ e ∈ j.sibling, e.Separates P := fun e he => hl.kids e (hsib e he)
    by_cases hrich : 2 * (P - 18) ≤ 5 * fill P es
    · exact .inl hrich
    · refine .inr ⟨j, hjoint, ?_⟩
      split_ifs with hlends
      · refine hl.takes hP hj (SlimSide.levels hrest) (slim_getD_key hP fun e he => ?_)
        split_ifs at he with hside
        · exact (hsibling e (List.mem_of_getLast? he)).key
        · exact (hsibling e (List.mem_of_head? he)).key
      · exact ⟨merges_of_slim hP (Nat.lt_of_not_le hrich) (hl.joined hj).2 hsibling hlends,
          ih hrest _⟩

theorem leafMends_of_slim (hP : PageRange P) (hl : SlimSide P (Entry.Slim P) l)
    (habove : ∀ l ∈ above, SlimSide P (Entry.Separates P) l) (es : List Entry) :
      LeafMends P (l :: above) es := by
  obtain ⟨j, hjoint, hj, hsib⟩ := Level.exists_joint hl.ne
  refine .inr ⟨j, hjoint, ?_⟩
  split_ifs with hlends
  · refine hl.takes hP hj (SlimSide.levels habove) (slim_getD_key hP fun e he => ?_)
    split_ifs at he with hside
    · exact (hl.kids e (hsib e (List.mem_of_getLast? he))).1
    · exact (hl.kids e (hsib e (List.mem_of_getElem? he))).1
  · exact mends_of_slim hP habove _

/-- Without overflow pages the depth bounds what a deletion takes. -/
theorem mendRoom_slim (hP : PageRange P) {levels : List Level}
    (hlevels : ∀ l ∈ levels, SlimSide P (Entry.Slim P) l) :
    mendRoom P levels = levels.length * (levels.length + 5) := by
  induction levels with
  | nil => rfl
  | cons l levels ih =>
    obtain ⟨hl, hrest⟩ := List.forall_mem_cons.1 hlevels
    have hkids := hl.kids
    rw [List.forall_mem_append] at hkids
    rw [mendRoom, entriesPages_slim hkids.1, entriesPages_slim hkids.2,
      levelsRoom_slim hP (List.forall_mem_cons.2 ⟨hl.keys, SlimSide.levels hrest⟩), ih hrest]
    simp only [List.length_cons, List.length_map]
    ring

end Mend

/-! ## Trees -/

namespace Tree

/-- The nodes hold slim records and separators, and no branch is overfull. -/
def Slim (P : Nat) : {d : ℕ} → Tree d → Prop
  | 0, t => ∀ e ∈ LeafNodeT.entries t, e.Slim P
  | d + 1, t => (∀ e ∈ BranchNodeT.entries t, e.Separates P) ∧
      fill P (BranchNodeT.entries t) ≤ P - 18 ∧ ∀ k ∈ BranchNodeT.kids t, Slim P (d := d) k

/-- The entries of a node at this height. -/
def SlimAt (P : Nat) : ℕ → Entry → Prop
  | 0 => Entry.Slim P
  | _ + 1 => Entry.Separates P

section Slim

variable {P d : ℕ} {t : Tree d} {cmp : Bytes → Bytes → Ordering} {key : Bytes}

theorem Slim.entries (h : t.Slim P) : ∀ e ∈ t.entries, SlimAt P d e := by
  cases d with
  | zero => exact h
  | succ d => exact h.1

/-- The way of a key goes on below a branch. -/
theorem exists_next (t : Tree (d + 1)) (cmp : Bytes → Bytes → Ordering) (key : Bytes) : ∃ k,
      (BranchNodeT.kids
        t)[((BranchNodeT.entries t).takeWhile fun e => cmp key e.key ≠ .lt).length]? = some k := by
  have hlen := BranchNodeT.len t
  have hle :=
    (List.takeWhile_sublist (fun e => decide (cmp key e.key ≠ .lt))
      (l := BranchNodeT.entries t)).length_le
  exact ⟨_, List.getElem?_eq_getElem (Nat.lt_of_le_of_lt hle (by omega))⟩

theorem Slim.route (h : t.Slim P) (cmp : Bytes → Bytes → Ordering) (key : Bytes)
    (above : List (List Entry × List Entry)) (habove : ∀ l ∈ above, SlimLevel P l) :
    (∀ l ∈ (t.route cmp key above).levels, SlimLevel P l) ∧
      (∀ e ∈ (t.route cmp key above).left ++ (t.route cmp key above).right, e.Slim P) ∧
        (t.route cmp key above).levels.length = d + above.length := by
  induction d generalizing above with
  | zero =>
    refine ⟨habove, fun e he => h e ?_, (Nat.zero_add _).symm⟩
    simp only [Tree.route, List.takeWhile_append_dropWhile] at he
    exact he
  | succ d ih =>
    obtain ⟨hentries, hfill, hkids⟩ := h
    obtain ⟨k, hk⟩ := t.exists_next cmp key
    rw [Tree.route_of_kid rfl hk]
    have hlevel : ∀ n, SlimLevel P
        ((BranchNodeT.entries t).take n, (BranchNodeT.entries t).drop n) := by
      intro n
      constructor <;> rwa [List.take_append_drop]
    obtain ⟨h₁, h₂, h₃⟩ :=
      ih (hkids k (List.mem_of_getElem? hk)) _ (List.forall_mem_cons.2 ⟨hlevel _, habove⟩)
    refine ⟨h₁, h₂, h₃.trans ?_⟩
    rw [List.length_cons]
    omega

/-- The keys around a child, and its neighbours. -/
def levelAt (t : Tree (d + 1)) (n : ℕ) : Level :=
  ⟨(BranchNodeT.entries t).take n, (BranchNodeT.entries t).drop n,
    (((BranchNodeT.kids t).take n).getLast?.map Tree.entries).getD [],
    (((BranchNodeT.kids t).drop (n + 1)).head?.map Tree.entries).getD []⟩

theorem Slim.levelAt {t : Tree (d + 1)} (h : t.Slim P) (hne : BranchNodeT.entries t ≠ []) (n : ℕ) :
    SlimSide P (SlimAt P d) (t.levelAt n) := by
  obtain ⟨hentries, hfill, hkids⟩ := h
  have hkid : ∀ o : Option (Tree d), (∀ k ∈ o, k ∈ BranchNodeT.kids t) →
      ∀ e ∈ (o.map Tree.entries).getD [], SlimAt P d e := by
    intro o ho e he
    cases o with
    | none => exact absurd he List.not_mem_nil
    | some k => exact Slim.entries (hkids k (ho k rfl)) e he
  refine ⟨?_, ?_, List.forall_mem_append.2 ⟨hkid _ fun k hk => ?_, hkid _ fun k hk => ?_⟩⟩
  · constructor <;> rwa [Level.keys, Tree.levelAt, List.take_append_drop]
  · rwa [Tree.levelAt, List.take_append_drop]
  · exact (List.take_subset _ _) (List.mem_of_getLast? hk)
  · exact (List.drop_subset _ _) (List.mem_of_head? hk)

/-- The levels on the way of a key: next to it are leaves in the lowest, and branches in the others.
-/
theorem Slim.sides (h : t.Slim P) (hfull : t.Full) (cmp : Bytes → Bytes → Ordering) (key : Bytes)
    (above : List Level) (habove : ∀ l ∈ above.head?, SlimSide P (SlimAt P d) l)
    (hrest : ∀ l ∈ above.tail, SlimSide P (Entry.Separates P) l) :
    (∀ l ∈ (t.sides cmp key above).head?, SlimSide P (Entry.Slim P) l) ∧
      (∀ l ∈ (t.sides cmp key above).tail, SlimSide P (Entry.Separates P) l) ∧
        (t.sides cmp key above).length = d + above.length := by
  induction d generalizing above with
  | zero => exact ⟨habove, hrest, (Nat.zero_add _).symm⟩
  | succ d ih =>
    have hall : ∀ l ∈ above, SlimSide P (Entry.Separates P) l := by
      cases above with
      | nil => exact fun _ hl => absurd hl List.not_mem_nil
      | cons l above => exact List.forall_mem_cons.2 ⟨habove l rfl, hrest⟩
    obtain ⟨k, hk⟩ := t.exists_next cmp key
    have hmem := List.mem_of_getElem? hk
    rw [Tree.sides_of_kid rfl hk]
    obtain ⟨h₁, h₂, h₃⟩ := ih (h.2.2 k hmem) (hfull.2 k hmem) (t.levelAt _ :: above)
      (fun l hl => Option.some.inj hl ▸ h.levelAt hfull.1 _) hall
    refine ⟨h₁, h₂, h₃.trans ?_⟩
    rw [List.length_cons]
    omega

end Slim

end Tree

/-- The tree of a transaction whose records are slim. -/
theorem Own.slim {Γ : PageScope} {b r d : ℕ} {t : Tree d} {O : Multiset Obj} {s : TxState}
    (h : Own Γ b r (t.objs + O) s) (hslim : ∀ x ∈ t.flat, x.Slim Γ.P) : t.Slim Γ.P := by
  induction d generalizing O with
  | zero =>
    obtain ⟨p, txid, es, rfl⟩ := t.exists_leaf
    exact fun e he => hslim (.record e.data) (List.mem_map_of_mem he)
  | succ d ih =>
    obtain ⟨p, txid, es, kids, len, rfl⟩ := t.exists_branch
    rw [Tree.flat_branch, forall_mem_weave (by simpa using len)] at hslim
    obtain ⟨hkids, hseparators⟩ := hslim
    have hm : Obj.node p (.branch txid es (kids.map Tree.pgid)) ∈
      (Tree.branch p txid es kids len).objs + O := by simp
    refine ⟨fun e he =>
      ⟨hseparators (.separator e.key) (List.mem_map_of_mem he), h.branch_values hm e he⟩,
      h.fill_le_of_mem hm, fun k hk => ?_⟩
    obtain ⟨A, B, rfl⟩ := List.append_of_mem hk
    refine ih
      (O := .node p (.branch txid es ((A ++ k :: B).map Tree.pgid)) ::ₘ ((A.map Tree.objs).sum +
      (B.map Tree.objs).sum + O)) (h.perm ?_) fun x hx => hkids _ (List.mem_map_of_mem hk) x hx
    rw [Tree.objs_branch, List.map_append (f := Tree.objs), List.map_cons (f := Tree.objs),
      List.sum_append, List.sum_cons]
    simp only [← Multiset.singleton_add]
    abel

/-! ## The laws -/

/-- Pages that a call on a tree of slim records can take: it copies a path, and on every level of it
splits a branch or balances it with its sibling. -/
def callRoom : ℕ := kStackSize * (kStackSize + 6)

section Laws

variable {Γ : Scope} {b : ℕ} {t : Shape} {O : Multiset Obj} {s : TxState} {key value : Bytes}

theorem WellFormed.with_room {b' : ℕ} (h : WellFormed Γ b t O s)
    (hroom : s.metaStruct.pageCount + b' ≤ kPageMaxCount) : WellFormed Γ b' t O s :=
  { h with own := { h.own with room := hroom } }

/-- **Slim records are inserted cleanly.** -/
theorem WellFormed.insertsCleanly (h : WellFormed Γ b t O s) (hslim : t.Slim Γ.P)
    (hrecord : SlimRecord Γ.P key value) : t.InsertsCleanly Γ.P Γ.env.comparator key value ∧
    t.putRoom Γ.P Γ.env.comparator key value ≤ callRoom := by
  cases t with
  | empty =>
    refine ⟨trivial, ?_⟩
    show recordPages Γ.P key value + 1 ≤ callRoom
    rw [hrecord.pages_eq]
    decide
  | @tree D t =>
    have htree := h.own.slim hslim
    have hdepth := h.own.depth_lt h.full
    obtain ⟨hlevels, hleaf, hlen⟩ := htree.route Γ.env.comparator key [] fun _ hl =>
      absurd hl List.not_mem_nil
    constructor
    · refine .inr (risesCleanly_of_slim Γ.hP hlevels ?_)
      refine slim_getD_insertIdx Γ.hP (fun e he => (hleaf e he).1) hrecord.1 ?_ _
      rw [List.length_append]
      exact Nat.le_add_right _ _
    · show levelsRoom Γ.P _ + (1 + 2 * entriesPages Γ.P (_ ++ _) + recordPages Γ.P key value) +
        (D + 1) ≤ callRoom
      rw [levelsRoom_slim Γ.hP hlevels, entriesPages_slim hleaf, hrecord.pages_eq,
        hlen, List.length_nil]
      unfold callRoom kStackSize at *
      omega

/-- **Slim records are deleted cleanly**, except the entries of live sub-buckets. -/
theorem WellFormed.deletesCleanly (h : WellFormed Γ b t O s) (hslim : t.Slim Γ.P)
    (hlive : ∀ value, find key t.contents = some (value, true) → value = [0xff, 0xff, 0xff, 0xff]) :
    t.DeletesCleanly Γ.P Γ.env.comparator key ∧
    t.deleteRoom Γ.P Γ.env.comparator key ≤ callRoom := by
  cases t with
  | empty => exact ⟨trivial, Nat.zero_le _⟩
  | @tree D t =>
    have htree := h.own.slim hslim
    have hdepth := h.own.depth_lt h.full
    have hnone : ∀ (P : Level → Prop), ∀ l ∈ ([] : List Level), P l :=
      fun P l hl => absurd hl List.not_mem_nil
    -- The records of the leaf are slim, and so are the keys of the branches beside the path.
    obtain ⟨-, hleaf, -⟩ := htree.route Γ.env.comparator key [] fun _ hl =>
      absurd hl List.not_mem_nil
    have hsides : (∀ l ∈ t.sides Γ.env.comparator key [], SlimSide Γ.P (Entry.Slim Γ.P) l) ∧
        (∀ es, LeafMends Γ.P (t.sides Γ.env.comparator key []) es) ∧
          (t.sides Γ.env.comparator key []).length = D := by
      cases D with
      | zero => exact ⟨hnone _, fun _ => trivial, rfl⟩
      | succ D =>
        obtain ⟨h₁, h₂, h₃⟩ :=
          htree.sides h.full Γ.env.comparator key [] (fun _ hl => absurd hl (by simp)) (hnone _)
        cases hside : t.sides Γ.env.comparator key [] with
        | nil =>
          rw [hside] at h₃
          cases h₃
        | cons l above =>
          rw [hside] at h₁ h₂ h₃
          refine ⟨List.forall_mem_cons.2 ⟨h₁ l rfl, fun k hk => ?_⟩,
            leafMends_of_slim Γ.hP (h₁ l rfl) h₂, h₃⟩
          have hk := h₂ k hk
          exact ⟨hk.keys, hk.ne, fun e he => (hk.kids e he).slim Γ.hP⟩
    obtain ⟨hlevels, hmends, hlen⟩ := hsides
    constructor
    · obtain ⟨p, status, hp, -, -⟩ := h.own.treeLowerBound h.ordered h.full key
      intro e he hkey
      refine ⟨fun hbucket => hbucket.2 (hlive e.value ?_), hmends _⟩
      have hfind : find key (Shape.tree t).contents = p.hit.map fun e => (e.value, e.isBucket) :=
        hp.find_eq
      rw [hfind, hp.hit_of_head he hkey, Option.map_some, hbucket.1]
    · show entriesPages Γ.P (_ ++ _) + mendRoom Γ.P _ + (D + 1) ≤ callRoom
      rw [entriesPages_slim hleaf, mendRoom_slim Γ.hP hlevels, hlen]
      -- The room grows with the square of the depth, which the stack of the iterator bounds.
      have hsquare : D * (D + 5) ≤ 31 * 36 :=
        Nat.mul_le_mul (by unfold kStackSize at hdepth; omega) (by
        unfold kStackSize at hdepth
        omega)
      unfold callRoom kStackSize at *
      omega

/-- **A slim value is replaced by one that is no longer.** -/
theorem WellFormed.overwriteFits {old : Bytes} {isBucket : Bool} (h : WellFormed Γ b t O s)
    (hslim : t.Slim Γ.P) (hrecord : SlimRecord Γ.P key value)
    (hfind : find key t.contents = some (old, isBucket)) (hle : value.length ≤ old.length) :
    BTree.OverwriteFits Γ.env key value s ∧ t.overwriteRoom Γ.P key value ≤ callRoom := by
  cases t with
  | empty => cases hfind
  | @tree D t =>
    have hdepth := h.own.depth_lt h.full
    obtain ⟨p, status, hp, -, hlower⟩ := h.own.treeLowerBound h.ordered h.full key
    have hmap : find key (Shape.tree t).contents = p.hit.map fun e => (e.value, e.isBucket) :=
      hp.find_eq
    rw [hfind] at hmap
    obtain ⟨e, hhit, heq⟩ := Option.map_eq_some_iff.1 hmap.symm
    obtain ⟨rfl, rfl⟩ := Prod.mk.inj heq
    obtain rfl : e.key = key := hp.hit_key e hhit
    have hmem : Obj.node p.pgid (.leaf p.txid (p.left ++ e :: p.right)) ∈ t.objs + O := by
      have hentries : p.entries = p.left ++ e :: p.right := by
        unfold Place.entries
        rw [hhit]
        rfl
      rw [← hp.tree_eq, Place.tree, Ctx.objs_plug, Tree.objs_leaf, hentries]
      simp
    have hinline : ¬ Node.maxInline Γ.P < e.size := by
      have hitem : SlimRecord Γ.P e.key e.value := hslim (.record e.data) (by
        show _ ∈ t.flat
        rw [← hp.tree_eq, p.flat_tree, hhit]
        simp)
      exact Nat.not_lt.2 hitem.2
    -- Neither record is in overflow pages, so the stub shrinks with the value.
    have hstub : recordStub Γ.P e.key value ≤ e.stub Γ.P := by
      have hnew := hrecord.2
      unfold recordStub Entry.stub Node.stubSize
      rw [if_neg (Nat.not_lt.2 hnew), if_neg hinline]
      exact Nat.add_le_add_left hle _
    have hfill := h.own.fill_le_of_mem hmem
    obtain ⟨n, hrep, -, hpage, -⟩ := h.own.read_of_mem hmem
    obtain ⟨l₁, slot, l₂, hs⟩ := hrep.leaf_slots
    have hslot : n.slots[p.left.length]? = some slot := by
      rw [show n.slots = l₁ ++ slot :: l₂ from hs.slots, ← hs.length]
      simp
    refine ⟨⟨p.pgid, p.left.length, p.ctx.stack, status, n, slot, hlower, hpage, hslot, ?_⟩, ?_⟩
    · refine (Node.updateFits_iff Γ.hP hrep ⟨hs.slots, hs.length, hs.heads₁, hs.head, hs.heads₂⟩
        e.key value).2 ⟨.inr hinline, ?_⟩
      rw [show NodeView.entries (.leaf p.txid (p.left ++ e :: p.right)) = p.left ++ e :: p.right
        from rfl, fill_append, fill_cons] at hfill
      unfold Fits
      rw [fill_append]
      omega
    · show D + 1 + recordPages Γ.P e.key value ≤ callRoom
      rw [hrecord.pages_eq]
      unfold callRoom kStackSize at *
      omega

end Laws

end AtomKV
