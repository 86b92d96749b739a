import AtomKV.BranchWrite

/-!
# Lists of records

Two lists of records are compared by what they say (`SameContent`: keys and values; `SameData`:
the bucket flags as well), because a record that moves to another node gets a new run of
overflow pages. The space of the records depends on their contents only, and one record takes at
most half of a node.
-/

set_option autoImplicit false

namespace AtomKV

/-- Key and value. -/
def Entry.content (e : Entry) : Bytes × Bytes := (e.key, e.value)

/-- The same keys with the same values. -/
def SameContent (es es' : List Entry) : Prop := es.map Entry.content = es'.map Entry.content

/-- The records are the same to the user; only their overflow runs may differ. -/
def SameData (es es' : List Entry) : Prop := es.map Entry.data = es'.map Entry.data

/-- The overflow pages of the records. -/
def entriesPages (P : Nat) (es : List Entry) : Nat := (es.map (Entry.pages P)).sum

section Pages

variable {P : Nat}

@[simp] theorem entriesPages_nil : entriesPages P [] = 0 := rfl

@[simp] theorem entriesPages_cons (e : Entry) (es : List Entry) :
    entriesPages P (e :: es) = e.pages P + entriesPages P es := by
  simp [entriesPages]

@[simp] theorem entriesPages_append (es es' : List Entry) :
    entriesPages P (es ++ es') = entriesPages P es + entriesPages P es' := by
  simp [entriesPages]

end Pages

namespace SameContent

variable {P : Nat} {es es' es₁ es₁' es₂ es₂' : List Entry} {e e' : Entry}

theorem refl (es : List Entry) : SameContent es es := rfl

theorem trans {es'' : List Entry} (h : SameContent es es') (h' : SameContent es' es'') :
    SameContent es es'' := Eq.trans h h'

theorem append (h₁ : SameContent es₁ es₁') (h₂ : SameContent es₂ es₂') :
    SameContent (es₁ ++ es₂) (es₁' ++ es₂') := by
  unfold SameContent at *
  rw [List.map_append, List.map_append, h₁, h₂]

theorem cons (h : e.content = e'.content) (hs : SameContent es es') :
    SameContent (e :: es) (e' :: es') := by
  unfold SameContent at *
  rw [List.map_cons, List.map_cons, h, hs]

theorem length_eq (h : SameContent es es') : es.length = es'.length := by
  simpa using congrArg List.length h

theorem size_eq (h : e.content = e'.content) : e.size = e'.size := by
  obtain ⟨h1, h2⟩ := Prod.mk.inj h
  unfold Entry.size
  rw [h1, h2]

theorem fill_eq (h : SameContent es es') : fill P es = fill P es' := by
  have key : ∀ es : List Entry, fill P es =
      ((es.map Entry.content).map fun c => 8 + recordStub P c.1 c.2).sum := fun es => by
    induction es with
    | nil => rfl
    | cons e es ih =>
      rw [fill_cons, ih, List.map_cons, List.map_cons, List.sum_cons]
      rfl
  rw [key, key, h]

theorem entriesPages_eq (h : SameContent es es') : entriesPages P es = entriesPages P es' := by
  have key : ∀ es : List Entry, entriesPages P es =
      ((es.map Entry.content).map fun c => recordPages P c.1 c.2).sum := fun es => by
    simp only [entriesPages, List.map_map]
    rfl
  rw [key, key, h]

/-- Splitting one side where the other is split. -/
theorem exists_append (h : SameContent es (es₁ ++ es₂)) :
    ∃ l₁ l₂, es = l₁ ++ l₂ ∧ SameContent l₁ es₁ ∧ SameContent l₂ es₂ := by
  unfold SameContent at h
  rw [List.map_append] at h
  obtain ⟨l₁, l₂, hl, h1, h2, -⟩ := ListAt.exists_split_of_map h
  exact ⟨l₁, l₂, hl, h1, h2⟩

theorem map_key (h : SameContent es es') : es.map Entry.key = es'.map Entry.key := by
  have key : ∀ es : List Entry, es.map Entry.key = (es.map Entry.content).map Prod.fst :=
    fun es => by
    rw [List.map_map]
    rfl
  rw [key, h, ← key]

/-- The key at a position of a list into which a key was inserted. -/
theorem key_eq_getD {K₁ K₂ L M : List Entry} {u e : Entry}
    (h : SameContent (L ++ u :: M) (K₁ ++ e :: K₂)) :
    u.key = (((K₁ ++ K₂).map Entry.key).insertIdx K₁.length e.key).getD L.length [] := by
  have hmap : (L ++ u :: M).map Entry.key = K₁.map Entry.key ++ e.key :: K₂.map Entry.key := by
    rw [h.map_key, List.map_append, List.map_cons]
  have hinsert := ListAt.insertIdx_length (K₁.map Entry.key) (K₂.map Entry.key) e.key
  rw [List.length_map] at hinsert
  rw [List.map_append, hinsert, ← hmap, List.map_append, List.map_cons]
  simp

end SameContent

namespace SameData

variable {P : Nat} {es es' es₁ es₁' es₂ es₂' : List Entry} {e e' : Entry}

theorem content_eq (h : e.data = e'.data) : e.content = e'.content := by
  obtain ⟨h1, h2⟩ := Prod.mk.inj h
  exact Prod.ext h1 (Prod.mk.inj h2).1

theorem content (h : SameData es es') : SameContent es es' := by
  have key : ∀ es : List Entry, es.map Entry.content = (es.map Entry.data).map fun d =>
      (d.1, d.2.1) :=
    fun es => by
      rw [List.map_map]
      rfl
  unfold SameContent
  rw [key, key, h]

theorem refl (es : List Entry) : SameData es es := rfl

theorem symm (h : SameData es es') : SameData es' es := Eq.symm h

theorem trans {es'' : List Entry} (h : SameData es es') (h' : SameData es' es'') :
    SameData es es'' :=
  Eq.trans h h'

theorem append (h₁ : SameData es₁ es₁') (h₂ : SameData es₂ es₂') :
    SameData (es₁ ++ es₂) (es₁' ++ es₂') := by
  unfold SameData at *
  rw [List.map_append, List.map_append, h₁, h₂]

theorem cons (h : e.data = e'.data) (hs : SameData es es') : SameData (e :: es) (e' :: es') := by
  unfold SameData at *
  rw [List.map_cons, List.map_cons, h, hs]

theorem length_eq (h : SameData es es') : es.length = es'.length := h.content.length_eq

theorem size_eq (h : e.data = e'.data) : e.size = e'.size := SameContent.size_eq (content_eq h)

/-- Splitting one side where the other is split. -/
theorem exists_append (h : SameData es (es₁ ++ es₂)) :
    ∃ l₁ l₂, es = l₁ ++ l₂ ∧ SameData l₁ es₁ ∧ SameData l₂ es₂ := by
  unfold SameData at h
  rw [List.map_append] at h
  obtain ⟨l₁, l₂, hl, h1, h2, -⟩ := ListAt.exists_split_of_map h
  exact ⟨l₁, l₂, hl, h1, h2⟩

end SameData

/-- Records whose sizes fit into 32 bits. -/
def SmallSizes (es : List Entry) : Prop := ∀ e ∈ es, e.size < 4294967296

/-! ## Half of a node -/

section Half

variable {P : Nat} {key value : Bytes}

/-- A record with its slot takes at most half of a node. -/
theorem slot_stub_le (hP : PageRange P) (size : Nat) : 8 + Node.stubSize P size ≤ (P - 18) / 2 := by
  have h1 := Node.stubSize_le hP size
  have h2 := hP.min
  unfold Node.maxInline at h1
  omega

theorem half_add_half (hP : PageRange P) : (P - 18) / 2 + (P - 18) / 2 = P - 18 := by
  have := hP.even
  omega

/-- A half full node has room for any record. -/
theorem fits_of_half (hP : PageRange P) {es : List Entry} (h : 2 * fill P es ≤ P - 18)
    (key value : Bytes) : Fits P es key value := by
  have h1 := slot_stub_le hP (key.length + value.length)
  have h2 := half_add_half hP
  unfold Fits recordStub
  omega

/-- A node with one record more than a half full one has room for another slot. -/
theorem slotFits_of_half (hP : PageRange P) {es es' : List Entry} (h : 2 * fill P es ≤ P - 18)
    (hle : es'.length ≤ es.length + 1) : SlotFits P es' := by
  have hmin := hP.min
  unfold fill at h
  unfold SlotFits
  omega

/-- A node that refuses a record is more than half full. -/
theorem full_of_not_fits (hP : PageRange P) {es : List Entry} (h : ¬ Fits P es key value) :
    P - 18 < 2 * fill P es := by
  have h1 := slot_stub_le hP (key.length + value.length)
  have h2 := half_add_half hP
  unfold Fits recordStub at h
  omega

/-- A node that is more than half full has two records. -/
theorem two_le_length (hP : PageRange P) {es : List Entry} (h : P - 18 < 2 * fill P es) :
    2 ≤ es.length := by
  match es with
  | [] => simp at h
  | [e] =>
    have h1 := slot_stub_le hP e.size
    have h2 := half_add_half hP
    rw [fill_cons, fill_nil] at h
    unfold Entry.stub at h
    omega
  | _ :: _ :: _ => simp

/-- One record does not fill more than half of a node. -/
theorem ne_nil_of_over (hP : PageRange P) {es : List Entry} {e : Entry}
    (h : P - 18 < 2 * fill P (es ++ [e])) : es ≠ [] := by
  rintro rfl
  have h1 := slot_stub_le hP e.size
  have h2 := half_add_half hP
  rw [List.nil_append, fill_cons, fill_nil] at h
  unfold Entry.stub at h
  omega

/-- The number of records that stay in the left node of a split: those that take at most half of it,
where `used` bytes are taken already. -/
def splitCount (P : Nat) : Nat → List Entry → Nat
  | _, [] => 0
  | used, e :: es =>
      if 2 * (used + (8 + e.stub P)) ≤ P - 18 then splitCount P (used + (8 + e.stub P)) es + 1
        else 0

/-- The place where the records are divided. -/
theorem splitCount_eq {P : Nat} {e : Entry} (es₂ : List Entry) (es₁ : List Entry) (used : Nat)
    (hhalf : 2 * (used + fill P es₁) ≤ P - 18) (hover : P - 18 < 2 * (used + fill P (es₁ ++ [e]))) :
    splitCount P used (es₁ ++ e :: es₂) = es₁.length := by
  induction es₁ generalizing used with
  | nil =>
    rw [List.nil_append, fill_cons, fill_nil] at hover
    rw [List.nil_append, splitCount, if_neg (by omega)]
    rfl
  | cons e₁ es₁ ih =>
    rw [fill_cons] at hhalf
    rw [List.cons_append, fill_cons] at hover
    rw [List.cons_append, splitCount, if_pos (by omega), ih _ (by omega) (by omega)]
    rfl

end Half

end AtomKV
