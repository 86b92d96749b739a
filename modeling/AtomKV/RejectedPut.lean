import AtomKV.Layout
import AtomKV.LeafUpdate
import AtomKV.TreeSlots

/-!
# A rejected insertion

`Node::StoreRecord` looks at the sizes of a record and throws. By then `LeafNode::Insert` has made a
slot, `LeafNode::Update` has taken the old record out, and `BTree::Put` has copied pages, made a
root or split a leaf; nothing of this is taken back. The tree is as before only when the old record
was empty and the root had not to be copied.
-/

set_option autoImplicit false

namespace AtomKV

/-! ## The record is rejected -/

theorem admissible_iff {P : Nat} {key value : Bytes} :
    Admissible P key value ↔ key.length ≤ P ∧ key.length ≤ kKeyMaxSize ∧
    value.length ≤ kValueMaxSize :=
  ⟨fun h => ⟨h.key_le_page, h.key_le, h.value_le⟩, fun h => ⟨h.1, h.2.1, h.2.2⟩⟩

/-- `StoreRecord` rejects a record before it touches the page. -/
theorem Node.storeRecord_rejects {env : Env} {key value : Bytes}
    (hbig : ¬ Admissible env.pageSize key value) (pgid slotId : Nat) (s : TxState) :
    ∃ what, Node.storeRecord env pgid slotId key value s = (.error (.invalidArgument what), s) := by
  unfold Node.storeRecord
  by_cases hkey : key.length > env.pageSize ∨ key.length > kKeyMaxSize
  · refine ⟨"Key size exceeds the limit.", ?_⟩
    rw [if_pos hkey]
    rfl
  · have hvalue : value.length > kValueMaxSize := by
      by_contra hvalue
      exact hbig (admissible_iff.2 (by omega))
    refine ⟨"Value size exceeds the limit.", ?_⟩
    rw [if_neg hkey, if_pos hvalue]
    rfl

/-- A record that is rejected would have been one for overflow pages. -/
theorem recordStub_of_rejected {P : Nat} (hP : PageRange P) {key value : Bytes}
    (hbig : ¬ Admissible P key value) : recordStub P key value = kOverflowRecordSize := by
  have hmin := hP.min
  have hmax := hP.lt_max
  refine if_pos ?_
  by_contra hsmall
  unfold Node.maxInline at hsmall
  refine hbig (admissible_iff.2 ⟨by omega, ?_, ?_⟩)
  · unfold kKeyMaxSize
    omega
  · unfold kValueMaxSize
    omega

/-- A leaf that has another number of records than `es`, or counts other bytes. -/
def Node.Differs (P : Nat) (n : Node) (es : List Entry) : Prop :=
  n.isLeaf = true ∧ (n.slots.length ≠ es.length ∨ n.spaceUsed ≠ entriesSpace P es)

theorem SameData.entriesSpace_eq {P : Nat} {es es' : List Entry} (h : SameData es es') :
    entriesSpace P es = entriesSpace P es' := by
  have hfill : fill P es = fill P es' := SameContent.fill_eq h.content
  have hlen := h.length_eq
  unfold fill at hfill
  omega

/-- No tree has the records of before when a leaf has other records. -/
theorem WellFormed.not_of_differs {Γ : Scope} {D b b' q : ℕ} {c : Ctx 0 D} {n : Node}
    {R O : Multiset Obj} {es : List Entry} {t : Shape} {s : TxState}
    (hown : Own Γ b (c.rootId q) (.page q (.node n) ::ₘ (c.objs q + R)) s)
    (hdiffers : n.Differs Γ.P es)
    (hcontents : t.contents = records c.before ++ (es.map Entry.data ++ records c.after)) :
    ¬ WellFormed Γ b' t O s := by
  intro hwf
  obtain ⟨hleaf, hother⟩ := hdiffers
  obtain ⟨hsized, es', hdata, hholds⟩ := WellFormed.leaf_holds hown hleaf hwf hcontents
  have hsame : SameData es' es := hdata
  rcases hother with hlen | hspace
  · exact hlen (hholds.length_eq.trans hsame.length_eq)
  · refine hspace ?_
    rw [hsized.used, hleaf, hholds.space_eq, hsame.entriesSpace_eq]

theorem Slot.eq_of_empty {slot : Slot} (hkey : slot.keySize = 0) (hword : slot.word = 0) :
    { slot with keySize := 0, word := 0 } = slot := by
  cases slot
  cases hkey
  cases hword
  rfl

namespace Own

variable {Γ : PageScope} {b r : ℕ} {O : Multiset Obj} {s : TxState} {q t : Nat}
  {es₁ es₂ : List Entry} {e : Entry} {key value : Bytes}

/-- The slot is made, and nothing stands in it. -/
theorem leafInsert_rejects (h : Own Γ b r (.node q (.leaf t (es₁ ++ es₂)) ::ₘ O) s)
    (hq : ¬ Γ.keep q) (hbig : ¬ Admissible Γ.P key value) (hfit : Fits Γ.P (es₁ ++ es₂) key value) :
    ∃ what s' n, LeafNode.insert Γ.env q es₁.length key value s =
      (.error (.invalidArgument what), s') ∧
      Own Γ b r (.page q (.node n) ::ₘ (recordsOf Γ.P (es₁ ++ es₂) + O)) s' ∧ n.isLeaf = true ∧
      n.slots.length = (es₁ ++ es₂).length + 1 ∧ n.spaceUsed = entriesSpace Γ.P (es₁ ++ es₂) := by
  obtain ⟨n₀, hrep₀, hown⟩ := h.unfold_node
  obtain ⟨n, hreq, hcore, hsized₀, -⟩ :=
    Node.requestSpaceFor_ok Γ.hP hrep₀.sized key.length value.length true
  have hgrant := (hrep₀.granted_iff Γ.hP key value).2 hfit
  have hrep := hrep₀.of_core hcore hsized₀
  obtain ⟨l₁, l₂, hl, -, -, hlen⟩ := hrep.split rfl
  set slot := n.slots.getD es₁.length .stale with hslot
  obtain ⟨s₁, hset, h₁⟩ := hown.setNode hq { n with slots := n.slots.insertIdx es₁.length slot }
  have hcount : es₁.length ≤ n₀.count := by
    rw [hrep₀.count_eq, List.length_append]
    omega
  have hreq' : n₀.requestSpaceFor Γ.P key.length value.length true = .ok (true, n) :=
    hreq.trans (congrArg (fun ok => Except.ok (ok, n)) (decide_eq_true hgrant))
  obtain ⟨what, hstore⟩ := Node.storeRecord_rejects hbig q es₁.length s₁
  refine ⟨what, s₁, _, ?_, h₁, hrep.isLeaf_eq, ?_, hrep.spaceUsed_eq⟩
  · unfold LeafNode.insert assert
    rw [Exec.bind_of_ok hown.getNode, Exec.require_bind hcount, hreq', Exec.lift_ok_bind]
    show (do
      Pager.setNode q { n with slots := n.slots.insertIdx es₁.length slot }
      Node.storeRecord Γ.env q es₁.length key value
      pure true : TxM Bool) s = _
    rw [Exec.bind_of_ok hset, Exec.bind_of_error hstore]
  · have hn : n.slots.length = (es₁ ++ es₂).length := hrep.count_eq
    rw [← hn, hl, ← hlen, ListAt.insertIdx_length]
    simp only [List.length_append, List.length_cons]
    omega

/-- The old record is out. -/
theorem leafUpdate_rejects {n₀ : Node} {slot : Slot}
    (h : Own Γ b r (.node q (.leaf t (es₁ ++ e :: es₂)) ::ₘ O) s)
    (hq : ¬ Γ.keep q) (hn : s.pager.pages q = .node n₀) (hslot : n₀.slots[es₁.length]? = some slot)
    (hbig : ¬ Admissible Γ.P key value) (hfits : n₀.UpdateFits Γ.P slot key value) :
    ∃ what s' n, LeafNode.update Γ.env q es₁.length key value s =
      (.error (.invalidArgument what), s') ∧
      Own Γ b r (.page q (.node n) ::ₘ (recordsOf Γ.P (es₁ ++ e :: es₂) + O)) s' ∧ n.isLeaf = true ∧
      n.spaceUsed = entriesSpace Γ.P (es₁ ++ es₂) := by
  obtain ⟨n', hrep, hown⟩ := h.unfold_node
  obtain rfl : n₀ = n' := Page.node.inj (hn.symm.trans (hown.rep _ (Multiset.mem_cons_self _ _)))
  obtain ⟨l₁, slot', l₂, hs⟩ := hrep.around rfl
  obtain rfl : slot' = slot := Option.some.inj (hs.getElem?.symm.trans hslot)
  obtain ⟨hin, hfit⟩ := (Node.updateFits_iff Γ.hP hrep hs key value).1 hfits
  obtain ⟨n₂, m₁, slot₂, m₂, hreq, hvac⟩ := (hrep.request_cases Γ.hP rfl hs key value).1 hin hfit
  obtain ⟨s₁, -, h₁, hrun⟩ := leafUpdate_begin key value hrep hs hq hown
  obtain ⟨s₂, hset₂, h₂⟩ := h₁.setNode hq n₂
  obtain ⟨what, hstore⟩ := Node.storeRecord_rejects hbig q es₁.length s₂
  have htype : n₂.type = .kLeaf := hvac.type.trans hrep.body.1
  have hleaf : n₂.isLeaf = true := by simp [Node.isLeaf, htype]
  refine ⟨what, s₂, n₂, ?_, h₂, hleaf, ?_⟩
  · rw [hrun]
    unfold LeafNode.updateFrom
    rw [hreq, Exec.lift_ok_bind]
    simp only [Bool.not_true, Bool.false_eq_true, if_false]
    rw [Exec.bind_of_ok hset₂, Exec.bind_of_error hstore]
  · have k1 : m₁.map Slot.head = l₁.map Slot.head := map_eq_of_bare (fun _ => rfl) hvac.bare₁
    have k2 : m₂.map Slot.head = l₂.map Slot.head := map_eq_of_bare (fun _ => rfl) hvac.bare₂
    have k3 : m₁.map Slot.word = l₁.map Slot.word := map_eq_of_bare (fun _ => rfl) hvac.bare₁
    have k4 : m₂.map Slot.word = l₂.map Slot.word := map_eq_of_bare (fun _ => rfl) hvac.bare₂
    have hwords := hrep.words rfl
    rw [hs.slots, List.map_append, List.map_cons] at hwords
    have hw : (es₁ ++ e :: es₂).map (fun e => e.value.length) =
        es₁.map (fun e => e.value.length) ++ e.value.length :: es₂.map fun e => e.value.length := by
      rw [List.map_append, List.map_cons]
    obtain ⟨w1, w2⟩ := List.append_inj (hwords.trans hw) (by simp [hs.length])
    rw [hvac.vacant.used, hleaf]
    refine slotsSpace_eq ?_ (fun _ => ?_) fun hf => by cases hf
    · rw [List.map_append, List.map_append, k1, k2, hs.heads₁, hs.heads₂]
    · rw [List.map_append, List.map_append, k3, k4, w1, (List.cons.inj w2).2]

/-- An empty record has nothing that could be taken out. -/
theorem leafUpdate_keeps (h : Own Γ b r (.node q (.leaf t (es₁ ++ e :: es₂)) ::ₘ O) s)
    (hq : ¬ Γ.keep q) (hbig : ¬ Admissible Γ.P key value) (hkey : e.key = [])
    (hvalue : e.value = []) (hfit : Fits Γ.P (es₁ ++ es₂) key value) :
    ∃ what s', LeafNode.update Γ.env q es₁.length key value s =
      (.error (.invalidArgument what), s') ∧
      Own Γ b r (.node q (.leaf t (es₁ ++ e :: es₂)) ::ₘ O) s' := by
  obtain ⟨n, hrep, hown⟩ := h.unfold_node
  obtain ⟨l₁, slot, l₂, hs⟩ := hrep.around rfl
  obtain ⟨s₁, -, h₁, hrun⟩ := leafUpdate_begin key value hrep hs hq hown
  have hsize : e.size = 0 := by rw [Entry.size, hkey, hvalue]; rfl
  have hinline : ¬ Node.maxInline Γ.P < e.size := by
    rw [hsize]
    exact Nat.not_lt_zero _
  -- taking the record out changes nothing
  have hwithout : n.without (entriesSpace Γ.P (es₁ ++ es₂)) l₁ slot l₂ = n := by
    have hspace : entriesSpace Γ.P (es₁ ++ es₂) = n.spaceUsed := by
      have hstub : e.stub Γ.P = e.size := if_neg hinline
      rw [hrep.space_split rfl, hstub, hsize, Nat.add_zero]
    have hcleared : slot.cleared n.isLeaf = slot := by
      have hkeySize : slot.keySize = 0 := by rw [hs.keySize_eq, hkey]; rfl
      have hword : slot.word = 0 := by rw [hrep.word_eq rfl hs hrep.isLeaf_eq, hvalue]; rfl
      rw [hs.cleared_inlined n.isLeaf hinline, hrep.isLeaf_eq]
      exact Slot.eq_of_empty hkeySize hword
    unfold Node.without
    rw [hspace, hcleared, ← hs.slots]
  obtain ⟨n₂, m₁, slot₂, m₂, hreq, -⟩ :=
    (hrep.request_cases Γ.hP rfl hs key value).1 (.inr hinline) hfit
  rw [hwithout] at h₁ hrun hreq
  obtain ⟨n₃, hreq₃, hcore, hsized, -⟩ :=
    Node.requestSpaceFor_ok Γ.hP hrep.sized key.length value.length false
  obtain rfl : n₃ = n₂ := by
    rw [hreq] at hreq₃
    exact (Prod.mk.inj (Except.ok.inj hreq₃)).2.symm
  obtain ⟨s₂, hset₂, h₂⟩ := h₁.setNode hq n₃
  obtain ⟨what, hstore⟩ := Node.storeRecord_rejects hbig q es₁.length s₂
  refine ⟨what, s₂, ?_, h₂.fold_node rfl (hrep.of_core hcore hsized)⟩
  rw [hrun]
  unfold LeafNode.updateFrom
  rw [hreq, Exec.lift_ok_bind]
  simp only [Bool.not_true, Bool.false_eq_true, if_false]
  rw [Exec.bind_of_ok hset₂, Exec.bind_of_error hstore]

end Own

/-! ## The leaf is split -/

section Split

variable {Γ : Scope} {b r : ℕ} {O : Multiset Obj} {s : TxState} {left right tl tr : Nat}
  {key value : Bytes} {L Ms A B : List Entry} {m : Entry}

/-- A leaf that has lost records. -/
theorem Own.differs_of_length (es : List Entry) {R : Multiset Obj}
    (h : Own Γ b r (.node left (.leaf tl L) ::ₘ (R + O)) s) (hlen : L.length ≠ es.length) :
    ∃ n R', Own Γ b r (.page left (.node n) ::ₘ (R' + O)) s ∧ n.Differs Γ.P es := by
  obtain ⟨n, hrep, hown⟩ := h.unfold_node
  refine ⟨n, recordsOf Γ.P L + R, hown.perm (by rw [add_assoc]), hrep.isLeaf_eq, .inl ?_⟩
  rw [show n.slots.length = L.length from hrep.count_eq]
  exact hlen

/-- The record is rejected in one of the halves, after the records have been moved. -/
theorem splitLeafInsert_rejects (hleft : ¬ Γ.keep left) (hright : ¬ Γ.keep right) (isBucket : Bool)
    (hbig : ¬ Admissible Γ.P key value) (h : Own Γ (b + m.pages Γ.P) r
      (.node left (.leaf tl L) ::ₘ .node right (.leaf tr (m :: Ms)) ::ₘ O) s)
    (hhalf : 2 * fill Γ.P L ≤ Γ.P - 18) (hrest : 2 * fill Γ.P Ms ≤ Γ.P - 18)
    (hsplit : L ++ m :: Ms = A ++ B) (hfull : ¬ Fits Γ.P (A ++ B) key value) :
    ∃ err s' n R, BTree.splitLeafInsert Γ.env left right A.length key value isBucket s =
      (.error err, s') ∧ Own Γ b r (.page left (.node n) ::ₘ (R + O)) s' ∧
      n.Differs Γ.P (L ++ m :: Ms) := by
  have hcount : Node.countOf left s = (.ok L.length, s) := h.countOf (Multiset.mem_cons_self _ _)
  by_cases hi : L.length < A.length
  · obtain ⟨A', hA, hA'⟩ : ∃ A', A = L ++ A' ∧ m :: Ms = A' ++ B := by
      obtain ⟨A', h1, h2⟩ | ⟨A', h1, h2⟩ := List.append_eq_append_iff.1 hsplit
      · exact ⟨A', h1, h2⟩
      · rw [h1, List.length_append] at hi
        omega
    have hAlen : A.length - L.length = A'.length := by
      rw [hA, List.length_append]
      omega
    by_cases hfit : Fits Γ.P (A' ++ B) key value
    · have h' : Own Γ b r (.node right (.leaf tr (A' ++ B)) ::ₘ .node left (.leaf tl L) ::ₘ O)
          s := by
        rw [← hA', Multiset.cons_swap]
        exact h.room_mono _ (Nat.le_add_right _ _)
      obtain ⟨what, s₁, n, hins, h₁, -⟩ := h'.leafInsert_rejects hright hbig hfit
      have hleft₁ : Own Γ b r (.node left (.leaf tl L) ::ₘ
          ((.page right (.node n) ::ₘ recordsOf Γ.P (A' ++ B)) + O)) s₁ := h₁.perm (by
        simp only [← Multiset.singleton_add]
        abel)
      obtain ⟨n', R, hown, hdiffers⟩ := Own.differs_of_length (L ++ m :: Ms) hleft₁ (by simp)
      refine ⟨.invalidArgument what, s₁, n', R, ?_, hown, hdiffers⟩
      unfold BTree.splitLeafInsert
      rw [Exec.bind_of_ok hcount, if_pos hi, hAlen, Exec.bind_of_error hins]
    · -- the first record goes back to the left half, where the next one stays
      obtain ⟨A'', rfl⟩ : ∃ A'', A' = m :: A'' := by
        cases A' with
        | nil =>
          rw [List.length_nil] at hAlen
          omega
        | cons x A'' =>
          obtain ⟨h1, -⟩ := List.cons.inj hA'
          exact ⟨A'', by rw [h1]⟩
      obtain ⟨-, rfl⟩ := List.cons.inj hA'
      have hmore : A'' ++ B ≠ [] := by
        intro hnil
        refine hfit ?_
        rw [List.cons_append, hnil]
        refine fits_of_half Γ.hP ?_ key value
        have h1 := slot_stub_le Γ.hP m.size
        have h2 := half_add_half Γ.hP
        rw [fill_cons, fill_nil]
        unfold Entry.stub
        omega
      have hm₀ : (m :: (A'' ++ B))[0]? = some m := rfl
      have hmr : Obj.node right (.leaf tr (m :: (A'' ++ B))) ∈
          .node left (.leaf tl L) ::ₘ .node right (.leaf tr (m :: (A'' ++ B))) ::ₘ O :=
        Multiset.mem_cons_of_mem (Multiset.mem_cons_self _ _)
      have hadm' : Admissible Γ.P m.key m.value :=
        (h.admissible_of_mem hmr m List.mem_cons_self).admissible
      have h₀ : Own Γ (b + recordPages Γ.P m.key m.value) r
          (.node left (.leaf tl (L ++ [])) ::ₘ .node right (.leaf tr (m :: (A'' ++ B))) ::ₘ O)
            s := by
        rw [List.append_nil]
        exact h
      obtain ⟨s₁, s₂, run, old, hins, h₁, hset, h₂⟩ := h₀.leafInsert_flag hleft hadm'
        (fits_of_half Γ.hP (by rwa [List.append_nil]) _ _)
        (slotFits_of_half Γ.hP hhalf (by rw [List.append_nil]; exact Nat.le_succ _)) m.isBucket
      rw [Multiset.cons_swap] at h₂
      obtain ⟨s₃, G, hdel, -, -, h₃⟩ := h₂.leafDelete_first hright
      have hright₃ : Own Γ b r (.node right (.leaf tr (A'' ++ B)) ::ₘ
          (G + .node left (.leaf tl (L ++ [⟨m.key, m.value, m.isBucket, run⟩])) ::ₘ O)) s₃ := h₃
      obtain ⟨what, s₄, n, hins', h₄, -⟩ :=
        hright₃.leafInsert_rejects hright hbig (fits_of_half Γ.hP hrest key value)
      have hleft₄ : Own Γ b r (.node left (.leaf tl (L ++ [⟨m.key, m.value, m.isBucket, run⟩])) ::ₘ
          ((.page right (.node n) ::ₘ (recordsOf Γ.P (A'' ++ B) + G)) + O)) s₄ := h₄.perm (by
        simp only [← Multiset.singleton_add]
        abel)
      have hshort : (L ++ [(⟨m.key, m.value, m.isBucket, run⟩ : Entry)]).length ≠
          (L ++ m :: (A'' ++ B)).length := by
        have hpos := List.length_pos_iff.2 hmore
        simp only [List.length_append, List.length_cons, List.length_nil] at hpos ⊢
        omega
      obtain ⟨n', R, hown, hdiffers⟩ := Own.differs_of_length (L ++ m :: (A'' ++ B)) hleft₄ hshort
      have hleft₃ : Obj.node left (.leaf tl (L ++ [⟨m.key, m.value, m.isBucket, run⟩])) ∈
          G + .node left (.leaf tl (L ++ [⟨m.key, m.value, m.isBucket, run⟩])) ::ₘ O :=
        Multiset.mem_add.2 (.inr (Multiset.mem_cons_self _ _))
      have hcount₁ : Node.countOf left s₁ = (.ok (L.length + 1), s₁) := by
        rw [h₁.countOf (Multiset.mem_cons_self _ _)]
        simp
      have hcount₃ : Node.countOf left s₃ = (.ok (L.length + 1), s₃) := by
        rw [h₃.countOf (Multiset.mem_cons_of_mem hleft₃)]
        simp
      have hlen' : A.length - (L.length + 1) = A''.length := by
        rw [List.length_cons] at hAlen
        omega
      have happend : LeafNode.append Γ.env left m.key m.value s = (.ok true, s₁) := by
        unfold LeafNode.append
        rw [Exec.bind_of_ok hcount, hins]
      have hrefused : LeafNode.insert Γ.env right (m :: A'').length key value s =
          (.ok false, s) := by
        have h' : Own Γ (b + m.pages Γ.P) r
            (.node right (.leaf tr (m :: A'' ++ B)) ::ₘ .node left (.leaf tl L) ::ₘ O) s := by
          rw [Multiset.cons_swap]
          exact h
        exact h'.leafInsert_refused hfit
      refine ⟨.invalidArgument what, s₄, n', R, ?_, hown, hdiffers⟩
      unfold BTree.splitLeafInsert
      rw [Exec.bind_of_ok hcount, if_pos hi, hAlen, Exec.bind_of_ok hrefused]
      simp only [Bool.not_false, if_true]
      rw [Exec.bind_of_ok (h.getKey hmr hm₀), Exec.bind_of_ok (h.getValue hmr hm₀),
        Exec.bind_of_ok happend]
      unfold assert
      rw [Exec.require_bind rfl, Exec.bind_of_ok hcount₁,
        Exec.bind_of_ok (h₁.isBucket (Multiset.mem_cons_of_mem (Multiset.mem_cons_self _ _)) hm₀),
        Nat.add_sub_cancel, Exec.bind_of_ok hset]
      rw [Exec.bind_of_ok (show LeafNode.delete Γ.env right 0 s₂ = _ from hdel),
        Exec.bind_of_ok hcount₃, hlen', Exec.bind_of_error hins']
  · obtain ⟨B', hB, hL'⟩ : ∃ B', B = B' ++ m :: Ms ∧ L = A ++ B' := by
      obtain ⟨A', h1, h2⟩ | ⟨A', h1, h2⟩ := List.append_eq_append_iff.1 hsplit
      · have : A' = [] := by
          rw [h1, List.length_append] at hi
          exact List.length_eq_zero_iff.1 (by omega)
        subst this
        exact ⟨[], h2.symm, by simpa using h1.symm⟩
      · exact ⟨A', h2, h1⟩
    subst hL'
    obtain ⟨what, s₁, n, hins, h₁, hleaf, hlen, hspace⟩ :=
      (h.room_mono b (Nat.le_add_right _ _)).leafInsert_rejects hleft hbig
        (fits_of_half Γ.hP hhalf key value)
    refine ⟨.invalidArgument what, s₁, n,
      recordsOf Γ.P (A ++ B') + {.node right (.leaf tr (m :: Ms))}, ?_, h₁.perm (by
      simp only [← Multiset.singleton_add]
      abel), hleaf, ?_⟩
    · unfold BTree.splitLeafInsert
      rw [Exec.bind_of_ok hcount, if_neg hi, Exec.bind_of_error hins]
    · -- one record has gone and one slot has come: the bytes of the record are missing
      by_cases hlast : Ms = []
      · subst hlast
        refine .inr ?_
        rw [← hsplit] at hfull
        have hstub := recordStub_of_rejected Γ.hP hbig
        have hmin := Γ.hP.min
        unfold Fits at hfull
        unfold kOverflowRecordSize at hstub
        rw [fill_append, fill_cons, fill_nil, hstub] at hfull
        have hlost : entriesSpace Γ.P (A ++ B' ++ [m]) =
            entriesSpace Γ.P (A ++ B') + m.stub Γ.P := by
          rw [entriesSpace_append Γ.P (A ++ B') [m], entriesSpace_cons,
            entriesSpace_nil, Nat.add_zero]
        rw [hspace, hlost]
        omega
      · refine .inl ?_
        have hpos := List.length_pos_iff.2 hlast
        simp only [hlen, List.length_append, List.length_cons]
        omega

/-- **`BTree::Split(LeafNode*)`** of a record that is rejected. -/
theorem splitLeaf_rejects (hleft : ¬ Γ.keep left) (isBucket : Bool)
    (hbig : ¬ Admissible Γ.P key value)
    (h : Own Γ (b + (1 + 2 * entriesPages Γ.P (A ++ B))) r (.node left (.leaf tl (A ++ B)) ::ₘ O) s)
    (hfull : ¬ Fits Γ.P (A ++ B) key value) :
    ∃ err s' n R, BTree.splitLeaf Γ.env left A.length key value isBucket s = (.error err, s') ∧
      Own Γ b r (.page left (.node n) ::ₘ (R + O)) s' ∧ n.Differs Γ.P (A ++ B) := by
  have hfill := full_of_not_fits Γ.hP hfull
  have htwo := two_le_length Γ.hP hfill
  have hle := h.fill_le_of_mem (Multiset.mem_cons_self _ _)
  have hcount : Node.countOf left s = (.ok (A ++ B).length, s) :=
    h.countOf (Multiset.mem_cons_self _ _)
  obtain ⟨right, s₁, halloc, h₁⟩ :=
    Own.alloc (n := 1) (h.room_mono (b + 2 * entriesPages Γ.P (A ++ B) + 1) (by omega))
  obtain ⟨s₂, hbuild, hright, h₂, -⟩ := h₁.buildLeaf
  rw [Multiset.cons_swap] at h₂
  have hrate : Node.fillRate Γ.env left s₂ = (.ok (fill Γ.P (A ++ B), Γ.P - 18), s₂) :=
    h₂.fillRate (Multiset.mem_cons_self _ _)
  -- Up to the insertion the split goes as for any other record.
  obtain ⟨_, s₃, hloop, G, es₁, e, es₂, M, hes, hhalf, hover, hM, -, -, h₃⟩ :=
    splitLeafLoop_ok (b := b + entriesPages Γ.P (A ++ B)) hleft hright (A ++ B) []
      (h₂.room_mono _ (by omega)) (by simpa using hle) hfill
  obtain ⟨m, Ms, rfl⟩ : ∃ m Ms, M = m :: Ms := by
    cases M with
    | nil => simp [SameData] at hM
    | cons m Ms => exact ⟨m, Ms, rfl⟩
  obtain ⟨hm, hMs⟩ := List.cons.inj hM
  rw [Multiset.cons_swap] at h₃
  obtain ⟨s₄, hreverse, h₄⟩ := h₃.reverseSlots_leaf hright
  rw [List.nil_append, List.reverse_reverse, Multiset.cons_swap] at h₄
  have hrate₄ : Node.fillRate Γ.env left s₄ = (.ok (fill Γ.P es₁, Γ.P - 18), s₄) :=
    h₄.fillRate (Multiset.mem_cons_self _ _)
  have hpages : m.pages Γ.P ≤ entriesPages Γ.P (A ++ B) := by
    have hm' : entriesPages Γ.P [m] = entriesPages Γ.P [e] :=
      (SameData.cons hm (SameData.refl [])).content.entriesPages_eq
    rw [hes, entriesPages_append, entriesPages_cons]
    simp only [entriesPages_cons, entriesPages_nil] at hm'
    omega
  have hrest : 2 * fill Γ.P Ms ≤ Γ.P - 18 := by
    have hfillM : fill Γ.P Ms = fill Γ.P es₂ := SameContent.fill_eq (SameData.content hMs)
    rw [hes] at hle
    rw [fill_append, fill_cons] at hle
    rw [fill_append, fill_cons, fill_nil] at hover
    rw [hfillM]
    omega
  have hsame : SameData (es₁ ++ m :: Ms) (A ++ B) := by
    rw [hes]
    exact (SameData.refl es₁).append hM
  obtain ⟨A', B', hsplit, hA, hB⟩ := hsame.exists_append
  have hfull' : ¬ Fits Γ.P (A' ++ B') key value := by
    unfold Fits at hfull ⊢
    rw [← hsplit, SameContent.fill_eq hsame.content]
    exact hfull
  -- The record is rejected after the records were divided, and nobody takes the split back.
  obtain ⟨err, s₅, n, R, hinsert, hown, hdiffers⟩ :=
    splitLeafInsert_rejects (b := b) hleft hright isBucket hbig
    (h₄.room_mono _ (by omega)) hhalf hrest hsplit hfull'
  refine ⟨err, s₅, n, R + G, ?_, hown.perm (by rw [add_assoc]), hdiffers.1, ?_⟩
  · unfold BTree.splitLeaf assert
    rw [Exec.bind_of_ok hcount, Exec.require_bind (by simp), Exec.bind_of_ok halloc,
      Exec.bind_of_ok hbuild, Exec.require_bind htwo, Exec.bind_of_ok hrate,
        Exec.require_bind (by simpa [Node.rateGt] using hfill),
      Exec.bind_of_ok hloop, Exec.bind_of_ok hreverse, Exec.bind_of_ok hrate₄,
      Exec.require_bind (by simpa [Node.rateGt] using hhalf), ← hA.length_eq,
        Exec.bind_of_error hinsert]
  · rw [← hsame.length_eq, ← hsame.entriesSpace_eq]
    exact hdiffers.2

end Split

/-! ## The path -/

section Path

variable {need : Nat → Bool} {cmp : Bytes → Bytes → Ordering} {key : Bytes}

/-- Every page on the way of `key` through the tree has to be copied. -/
def Tree.pathNeeds (need : Nat → Bool) (cmp : Bytes → Bytes → Ordering) (key : Bytes) :
    {d : ℕ} → Tree d → Bool
  | 0, t => need (LeafNodeT.txid t)
  | d + 1, t =>
      need (BranchNodeT.txid t) &&
        match (BranchNodeT.kids
          t)[((BranchNodeT.entries t).takeWhile fun e => cmp key e.key ≠ .lt).length]? with
        | some k => pathNeeds need cmp key (d := d) k
        | none => true

theorem Frame.pathNeeds_fill {d : ℕ} (f : Frame d) (t : Tree d)
    (hL : ∀ a ∈ f.esL, cmp key a.key ≠ .lt) (hR : ∀ a ∈ f.esR, cmp key a.key = .lt) :
    (f.fill t).pathNeeds need cmp key = (need f.txid && t.pathNeeds need cmp key) := by
  obtain ⟨htake, -⟩ := takeWhile_append_all (p := fun e : Entry => decide (cmp key e.key ≠ .lt))
    f.esL f.esR (fun a ha => decide_eq_true (hL a ha))
    (fun a ha => decide_eq_false fun h => h (hR a ha))
  have hkid : (f.ksL ++ t :: f.ksR)[f.esL.length]? = some t := by simp [← f.lenL]
  show (need f.txid && match (f.ksL ++ t :: f.ksR)[((f.esL ++ f.esR).takeWhile
      fun e => decide (cmp key e.key ≠ .lt)).length]? with
    | some k => Tree.pathNeeds need cmp key (d := d) k
    | none => true) = _
  rw [htake, hkid]

theorem Ctx.pathNeeds_plug {d D : ℕ} (c : Ctx d D) (t : Tree d)
    (hlow : ∀ x ∈ c.before, x.Low cmp key) (hhigh : ∀ x ∈ c.after, x.High cmp key) :
    (c.plug t).pathNeeds need cmp key = true ↔
    c.AllNeed need ∧ t.pathNeeds need cmp key = true := by
  induction c with
  | top => exact ⟨fun h => ⟨trivial, h⟩, fun h => h.2⟩
  | under f c ih =>
    have hbefore : ∀ a ∈ f.esL, Item.separator a.key ∈ (Ctx.under f c).before := fun a ha =>
      List.mem_append_right _ (mem_weavePre_of_mem (by simpa using f.lenL) (List.mem_map_of_mem ha))
    have hafter : ∀ a ∈ f.esR, Item.separator a.key ∈ (Ctx.under f c).after := fun a ha =>
      List.mem_append_left _ (mem_weavePost_of_mem (by simpa using f.lenR) (List.mem_map_of_mem ha))
    rw [Ctx.plug, ih (f.fill t) (fun x hx => hlow x (List.mem_append_left _ hx))
      (fun x hx => hhigh x (List.mem_append_right _ hx)),
      f.pathNeeds_fill t (fun a ha => hlow _ (hbefore a ha)) (fun a ha => hhigh _ (hafter a ha)),
        Bool.and_eq_true]
    show _ ↔ (need f.txid = true ∧ c.AllNeed need) ∧ _
    tauto

/-- The pages above the place of a key and its leaf. -/
theorem Place.At.pathNeeds_iff {D : ℕ} {p : Place D} {t : Tree D} (h : p.At cmp key t) :
    t.pathNeeds need cmp key = true ↔ need p.txid = true ∧ p.ctx.AllNeed need := by
  rw [← h.tree_eq]
  exact (p.ctx.pathNeeds_plug _ (fun x hx => h.low x (List.mem_append_left _ hx))
    fun x hx => h.high x (List.mem_append_right _ hx)).trans and_comm

end Path

/-! ## The whole call -/

/-- The rejected call throws and leaves the tree as it was: its root page, its records, and that it
is well-formed. -/
def BTree.RejectsCleanly (Γ : Scope) (b : ℕ) (t : Shape) (key value : Bytes) (isBucket : Bool)
    (s : TxState) : Prop :=
  ∃ what s' t' O', BTree.put Γ.env key value isBucket s = (.error (.invalidArgument what), s') ∧
    s'.rootPgid = s.rootPgid ∧ t'.contents = t.contents ∧ WellFormed Γ b t' O' s'

/-- The call replaces an empty record with an empty key, for which its leaf has room, and some page
on the path need not be copied. -/
def Shape.Unharmed (P : Nat) (need : Nat → Bool) (cmp : Bytes → Bytes → Ordering)
    (key value : Bytes) (isBucket : Bool) : Shape → Prop
  | .empty => False
  | .tree t =>
    let r := t.route cmp key []
    key = [] ∧ find key t.contents = some ([], isBucket) ∧
      Fits P (r.left ++ r.right.tail) key value ∧ t.pathNeeds need cmp key = false

/-- Pages that the call can take before it is rejected. -/
def Shape.rejectRoom (P : Nat) (cmp : Bytes → Bytes → Ordering) (key : Bytes) : Shape → ℕ
  | .empty => 1
  | @Shape.tree D t =>
      let r := t.route cmp key []
      1 + 2 * entriesPages P (r.left ++ r.right) + (D + 1)

section Put

variable {Γ : Scope} {b : ℕ} {O : Multiset Obj} {s : TxState} {key value : Bytes} {isBucket : Bool}

/-- A call that ends otherwise has not been rejected cleanly. -/
theorem BTree.not_rejectsCleanly_of_run {t : Shape} {result : Except Err Unit} {s₁ : TxState}
    (hrun : BTree.put Γ.env key value isBucket s = (result, s₁))
    (h : ∀ what t' O', result = .error (.invalidArgument what) → s₁.rootPgid = s.rootPgid →
      t'.contents = t.contents → ¬ WellFormed Γ b t' O' s₁) :
    ¬ BTree.RejectsCleanly Γ b t key value isBucket s := by
  rintro ⟨what, s', t', O', hrun', hroot, hcontents, hwf⟩
  obtain ⟨rfl, rfl⟩ := Prod.mk.inj (hrun.symm.trans hrun')
  exact h what t' O' rfl hroot hcontents hwf

/-- In an empty tree the root page stays. -/
theorem WellFormed.put_rejected_empty (h : WellFormed Γ (b + 1) .empty O s)
    (hbig : ¬ Admissible Γ.P key value) :
    ¬ BTree.RejectsCleanly Γ b .empty key value isBucket s := by
  have hroot : s.rootPgid = kPageInvalidId := h.own.root
  have hlower := BTree.lowerBound_empty Γ.env key hroot
  have hcopy : BTreeIterator.copyAllPagesByPath Γ.env BTreeIterator.init s =
    (.ok BTreeIterator.init, s) := rfl
  have h₀ : Own Γ (b + 1) kPageInvalidId O s := h.own.perm (zero_add O)
  obtain ⟨root, s₁, halloc, h₁⟩ := h₀.alloc
  obtain ⟨s₂, hbuild, hkeep, h₂, -⟩ := (h₁.setRoot root).buildLeaf
  have hfit : Fits Γ.P ([] ++ []) key value := by
    refine fits_of_half Γ.hP ?_ key value
    simp
  have h₂' : Own Γ b root (.node root (.leaf Γ.txid ([] ++ [])) ::ₘ O) s₂ := h₂
  obtain ⟨what, s₃, n, hins, h₃, -⟩ := h₂'.leafInsert_rejects hkeep hbig hfit
  have hrun : BTree.put Γ.env key value isBucket s = (.error (.invalidArgument what), s₃) := by
    unfold BTree.put
    rw [Exec.bind_of_ok hlower, Exec.bind_of_ok hcopy]
    unfold BTree.putAt assert
    simp only [BTreeIterator.init]
    rw [Exec.bind_of_ok halloc, Exec.change_bind, Exec.bind_of_ok hbuild]
    exact Exec.bind_of_error hins
  refine BTree.not_rejectsCleanly_of_run hrun fun _ _ _ _ hsame _ _ => ?_
  have h1 : s₃.rootPgid = root := h₃.root
  have h2 := (h₃.page_lt (Own.page_pos root (.node n))).2
  have h3 := h₃.room
  rw [h1, hroot] at hsame
  unfold kPageMaxCount at h3
  unfold kPageInvalidId at hsame
  omega

/-- What a call finds out before it writes: the place of the key, on a path that may be written. -/
structure BTree.Reached (Γ : Scope) (b : ℕ) (O : Multiset Obj) {D : ℕ} (t : Tree D) (key : Bytes)
    (p : Place D) (status : Status) (c : Ctx 0 D) (pgid txid : Nat) (s s₁ : TxState) : Prop where
  place : p.At Γ.env.comparator key t
  status_iff : status = .kEq ↔ p.hit.isSome
  alike : Ctx.Alike p.ctx c
  free : c.Free Γ.keep
  sides : c.SidesSafe Γ.need Γ.keep
  leaf : ¬ Γ.keep pgid
  own : Own Γ b (c.rootId pgid) (.node pgid (.leaf txid p.entries) ::ₘ (c.objs pgid + O)) s₁
  root_iff : c.rootId pgid = t.pgid ↔ t.pathNeeds Γ.need Γ.env.comparator key = false
  run : ∀ value isBucket, BTree.put Γ.env key value isBucket s =
    BTree.putAt Γ.env ⟨(pgid, p.left.length) :: c.stack, status⟩ key value false isBucket s₁

theorem WellFormed.put_reaches {D : ℕ} {t : Tree D}
    (h : WellFormed Γ (b + (Shape.tree t).rejectRoom Γ.P Γ.env.comparator key) (.tree t) O s) :
    ∃ p status c pgid txid s₁,
      BTree.Reached Γ (b + (1 + 2 * entriesPages Γ.P p.entries)) O t key p
        status c pgid txid s s₁ := by
  have := Γ.ok.trans
  obtain ⟨p, status, hp, hstatus, hlower⟩ := h.own.treeLowerBound h.ordered h.full key
  obtain ⟨iter, s₁, hcopy, c, pgid, txid, rfl, hcopied, hfree, hsides, hkeep, h₁, hroot, -⟩ :=
    Own.copyAllPagesByPath (b := b + (1 + 2 * entriesPages Γ.P p.entries)) p status (by
      rw [hp.tree_eq]
      refine h.own.room_mono _ ?_
      simp only [Shape.rejectRoom, hp.route_eq]
      unfold Place.entries
      omega) (by rw [hp.tree_eq]; exact h.safe)
  refine ⟨p, status, c, pgid, txid, s₁, hp, hstatus, hcopied.alike, hfree, hsides, hkeep, h₁, ?_,
    fun value isBucket => ?_⟩
  · rw [hp.tree_eq, ← hp.pathNeeds_iff] at hroot
    rw [hroot, Bool.not_eq_true]
  · unfold BTree.put
    rw [Exec.bind_of_ok hlower, Exec.bind_of_ok hcopy]

namespace BTree.Reached

variable {D : ℕ} {t : Tree D} {p : Place D} {status : Status} {c : Ctx 0 D}
  {pgid txid : Nat} {s₁ : TxState}

theorem mono {b' : ℕ} (h : BTree.Reached Γ b' O t key p status c pgid txid s s₁) (hle : b ≤ b') :
    BTree.Reached Γ b O t key p status c pgid txid s s₁ :=
  { h with own := h.own.room_mono b hle }

/-- The records of the tree around the leaf that was reached. -/
theorem contents_eq (h : BTree.Reached Γ b O t key p status c pgid txid s s₁) :
    t.contents = records c.before ++ (p.entries.map Entry.data ++ records c.after) := by
  have hflat : t.flat = p.ctx.before ++ (recordItems p.entries ++ p.ctx.after) := by
    rw [← h.place.tree_eq]
    exact p.ctx.flat_plug _
  rw [h.alike.before_eq, h.alike.after_eq]
  unfold Tree.contents
  rw [hflat, records_append, records_append, records_recordItems]

/-- A leaf with other records is in no tree with the records of before. -/
theorem not_wellFormed {b' : ℕ} {R O' : Multiset Obj} {n : Node} {t' : Shape} {s₂ : TxState}
    (h : BTree.Reached Γ b O t key p status c pgid txid s s₁)
    (hown : Own Γ b' (c.rootId pgid) (.page pgid (.node n) ::ₘ (c.objs pgid + R)) s₂)
    (hdiffers : n.Differs Γ.P p.entries) (hcontents : t'.contents = (Shape.tree t).contents) :
      ¬ WellFormed Γ b t' O' s₂ :=
  WellFormed.not_of_differs hown hdiffers (hcontents.trans h.contents_eq)

/-- The key is not there: the leaf gets a slot without a record, or its records are divided. -/
theorem put_absent (h : BTree.Reached Γ (b + (1 + 2 * entriesPages Γ.P p.entries)) O t key p status
    c pgid txid s s₁) (hbig : ¬ Admissible Γ.P key value) (hhit : p.hit = none) :
    ¬ BTree.RejectsCleanly Γ b (.tree t) key value isBucket s := by
  have hentries : p.entries = p.left ++ p.right := by
    unfold Place.entries
    rw [hhit]
    rfl
  have hne : status ≠ .kEq := fun heq => by
    have := h.status_iff.1 heq
    rw [hhit] at this
    cases this
  have hown := h.own
  rw [hentries] at hown
  -- `Put` before it looks at the sizes: the slot is opened, or the leaf is split.
  have hbegin : BTree.put Γ.env key value isBucket s = (do
      let success ← LeafNode.insert Γ.env pgid p.left.length key value
      if success then LeafNode.setIsBucket pgid p.left.length isBucket
      else do
        let right ← BTree.splitLeaf Γ.env pgid p.left.length key value isBucket
        let firstKey ← Node.getKey Γ.env right 0
        BTree.putBranch Γ.env c.stack pgid right firstKey : TxM Unit) s₁ := by
    rw [h.run]
    unfold BTree.putAt
    simp only [hne, Bool.not_false, decide_false, Bool.and_false, Bool.false_eq_true, if_false]
  have hcontents : ∀ {n : Node} {R : Multiset Obj} {s₂ : TxState} {t' : Shape} {O' : Multiset Obj},
      Own Γ b (c.rootId pgid) (.page pgid (.node n) ::ₘ (c.objs pgid + R)) s₂ →
      n.Differs Γ.P (p.left ++ p.right) → t'.contents = (Shape.tree t).contents →
        ¬ WellFormed Γ b t' O' s₂ := by
    intro n R s₂ t' O' hown₂ hdiffers hcontents
    refine WellFormed.not_of_differs hown₂ hdiffers (hcontents.trans ?_)
    rw [← hentries]
    exact h.contents_eq
  -- In a leaf with room the slot stays open; in a full one the records stay divided.
  by_cases hfit : Fits Γ.P (p.left ++ p.right) key value
  · obtain ⟨what, s₂, n, hins, h₂, hleaf, hlen, -⟩ :=
      (hown.room_mono b (Nat.le_add_right _ _)).leafInsert_rejects h.leaf hbig hfit
    have hrun : BTree.put Γ.env key value isBucket s = (.error (.invalidArgument what), s₂) := by
      rw [hbegin, Exec.bind_of_error hins]
    refine BTree.not_rejectsCleanly_of_run hrun fun _ t' O' _ _ hsame => ?_
    refine hcontents (R := recordsOf Γ.P (p.left ++ p.right) + O) (h₂.perm ?_)
      ⟨hleaf, .inl ?_⟩ hsame
    · rw [add_left_comm]
    · rw [hlen]
      exact Nat.succ_ne_self _
  · have hrefused := hown.leafInsert_refused hfit
    obtain ⟨err, s₂, n, R, hsplit, h₂, hdiffers⟩ := splitLeaf_rejects h.leaf isBucket hbig hown hfit
    have hrun : BTree.put Γ.env key value isBucket s = (.error err, s₂) := by
      rw [hbegin, Exec.bind_of_ok hrefused]
      simp only [Bool.false_eq_true, if_false]
      rw [Exec.bind_of_error hsplit]
    refine BTree.not_rejectsCleanly_of_run hrun fun _ t' O' _ _ hsame => ?_
    exact hcontents (R := R + O) (h₂.perm (by rw [add_left_comm])) hdiffers hsame

/-- The key is there. -/
theorem put_present {e : Entry} (h : BTree.Reached Γ b O t key p status c pgid txid s s₁)
    (hord : t.Ordered Γ.env.comparator) (hfull : t.RootFull) (hroot : s.rootPgid = t.pgid)
    (hbig : ¬ Admissible Γ.P key value) (hhit : p.hit = some e) :
    BTree.RejectsCleanly Γ b (.tree t) key value isBucket s ↔
      (Shape.tree t).Unharmed Γ.P Γ.need Γ.env.comparator key value isBucket := by
  have := Γ.ok.trans
  obtain rfl : e.key = key := h.place.hit_key e hhit
  obtain rfl : status = .kEq := h.status_iff.2 (by rw [hhit]; rfl)
  have hentries : p.entries = p.left ++ e :: p.right := by
    unfold Place.entries
    rw [hhit]
    rfl
  have hfind : find e.key t.contents = some (e.value, e.isBucket) := by
    have hmap : find e.key t.contents = p.hit.map fun e => (e.value, e.isBucket) := h.place.find_eq
    rw [hmap, hhit]
    rfl
  have hroute : t.route Γ.env.comparator e.key [] = ⟨p.ctx.levels, p.left, e :: p.right⟩ := by
    rw [h.place.route_eq, hhit]
    rfl
  have hunharmed : (Shape.tree t).Unharmed Γ.P Γ.need Γ.env.comparator e.key value isBucket ↔
      e.key = [] ∧ (e.value = [] ∧ e.isBucket = isBucket) ∧
      Fits Γ.P (p.left ++ p.right) e.key value ∧
        t.pathNeeds Γ.need Γ.env.comparator e.key = false := by
    simp only [Shape.Unharmed, hroute, hfind, List.tail_cons, Option.some.injEq, Prod.mk.injEq]
  have hown := h.own
  rw [hentries] at hown
  have hmem : Obj.node pgid (.leaf txid (p.left ++ e :: p.right)) ∈
      .node pgid (.leaf txid (p.left ++ e :: p.right)) ::ₘ (c.objs pgid + O) :=
        Multiset.mem_cons_self _ _
  have hflag : BTreeIterator.isBucket ⟨(pgid, p.left.length) :: c.stack, .kEq⟩ s₁ =
      (.ok e.isBucket, s₁) := by
    have hleaf : BTreeIterator.getLeafNode ⟨(pgid, p.left.length) :: c.stack, .kEq⟩ s₁ =
        (.ok (pgid, p.left.length), s₁) := rfl
    unfold BTreeIterator.isBucket
    rw [Exec.bind_of_ok hleaf]
    exact hown.isBucket hmem (by simp)
  have hbegin : BTree.put Γ.env e.key value isBucket s = (do
      assert (e.isBucket = isBucket)
      let _ ← LeafNode.update Γ.env pgid p.left.length e.key value
      LeafNode.setIsBucket pgid p.left.length isBucket : TxM Unit) s₁ := by
    rw [h.run]
    unfold BTree.putAt
    simp only [Bool.not_false, Bool.true_and, decide_true, if_true]
    rw [Exec.bind_of_ok hflag]
  rw [hunharmed]
  -- the flag
  by_cases hbucket : e.isBucket = isBucket
  swap
  · have hrun : BTree.put Γ.env e.key value isBucket s = (.error .assertion, s₁) := by
      rw [hbegin]
      unfold assert
      rw [Exec.require_bind_not hbucket]
    exact iff_of_false (BTree.not_rejectsCleanly_of_run hrun fun _ _ _ herr => by cases herr)
      fun hall => hbucket hall.2.1.2
  unfold assert at hbegin
  rw [Exec.require_bind hbucket] at hbegin
  -- the room
  by_cases hfit : Fits Γ.P (p.left ++ p.right) e.key value
  swap
  · obtain ⟨s₂, hset, -⟩ := hown.leafSetIsBucket h.leaf isBucket
    have hrun : BTree.put Γ.env e.key value isBucket s = (.ok (), s₂) := by
      rw [hbegin, Exec.bind_of_ok (hown.leafUpdate_refused h.leaf hfit)]
      exact hset
    exact iff_of_false (BTree.not_rejectsCleanly_of_run hrun fun _ _ _ herr => by cases herr)
      fun hall => hfit hall.2.2.1
  obtain ⟨n, hrep, -, hpage, -⟩ := hown.read_node
  obtain ⟨l₁, slot, l₂, hs⟩ := hrep.around rfl
  have hstub : e.stub Γ.P = 0 ↔ e.key = [] ∧ e.value = [] := by
    unfold Entry.stub Node.stubSize Entry.size kOverflowRecordSize
    split_ifs with hover
    · refine iff_of_false (by decide) fun hnil => ?_
      rw [hnil.1, hnil.2] at hover
      exact Nat.not_lt_zero _ hover
    · rw [Nat.add_eq_zero_iff, List.length_eq_zero_iff, List.length_eq_zero_iff]
  by_cases hempty : e.key = [] ∧ e.value = []
  · -- nothing is taken out
    obtain ⟨what, s₂, hupdate, h₂⟩ := hown.leafUpdate_keeps h.leaf hbig hempty.1 hempty.2 hfit
    have hrun : BTree.put Γ.env e.key value isBucket s = (.error (.invalidArgument what), s₂) := by
      rw [hbegin, Exec.bind_of_error hupdate]
    have hroot₂ : s₂.rootPgid = c.rootId pgid := h₂.root
    constructor
    · rintro ⟨what', s', t', O', hrun', hsame, -, -⟩
      obtain rfl : s₂ = s' := (Prod.mk.inj (hrun.symm.trans hrun')).2
      exact ⟨hempty.1, ⟨hempty.2, hbucket⟩, hfit,
        h.root_iff.1 (hroot₂.symm.trans (hsame.trans hroot))⟩
    · rintro ⟨-, -, -, hneeds⟩
      have hflat : (c.plug (.leaf pgid txid (p.left ++ e :: p.right))).flat = t.flat := by
        rw [Ctx.flat_plug, h.alike.before_eq, h.alike.after_eq, ← h.place.tree_eq, ← hentries]
        exact (p.ctx.flat_plug (.leaf p.pgid p.txid p.entries)).symm
      have hctx : p.ctx.Full := by
        rw [← h.place.tree_eq] at hfull
        exact p.ctx.full_of_plug hfull
      refine ⟨what, s₂, .tree (c.plug (.leaf pgid txid (p.left ++ e :: p.right))), O, hrun, ?_, ?_,
        WellFormed.of_leaf h₂ ?_ (h.alike.full_iff.2 hctx) (by simp) h.free h.sides h.leaf⟩
      · exact hroot₂.trans ((h.root_iff.2 hneeds).trans hroot.symm)
      · exact congrArg records hflat
      · unfold Tree.Ordered
        rw [hflat]
        exact hord
  · refine iff_of_false ?_ fun hall => hempty ⟨hall.1, hall.2.1.1⟩
    by_cases hfits : n.UpdateFits Γ.P slot e.key value
    · obtain ⟨what, s₂, n₂, hupdate, h₂, hleaf, hspace⟩ :=
        hown.leafUpdate_rejects h.leaf hpage hs.getElem? hbig hfits
      have hrun : BTree.put Γ.env e.key value isBucket s =
          (.error (.invalidArgument what), s₂) := by
        rw [hbegin, Exec.bind_of_error hupdate]
      refine BTree.not_rejectsCleanly_of_run hrun fun _ t' O' _ _ hsame => ?_
      refine h.not_wellFormed (R := recordsOf Γ.P (p.left ++ e :: p.right) + O) (h₂.perm ?_)
        ⟨hleaf, .inr ?_⟩ hsame
      · rw [add_left_comm]
      · rw [hspace, hentries]
        simp only [entriesSpace_append, entriesSpace_cons]
        have hne := mt hstub.1 hempty
        omega
    · obtain ⟨s₂, -, hupdate, -⟩ := hown.leafUpdate_error h.leaf hpage hs.getElem? hfit hfits
      have hrun : BTree.put Γ.env e.key value isBucket s = (.error .assertion, s₂) := by
        rw [hbegin, Exec.bind_of_error hupdate]
      exact BTree.not_rejectsCleanly_of_run hrun fun _ _ _ herr => by cases herr

end BTree.Reached

/-- **A rejected `BTree::Put`.** The tree is as before exactly when the call was to replace an empty
record in a leaf with room, below a root that need not be copied. -/
theorem put_rejects_iff {t : Shape}
    (h : WellFormed Γ (b + t.rejectRoom Γ.P Γ.env.comparator key) t O s)
    (hbig : ¬ Admissible Γ.P key value) (isBucket : Bool) :
    BTree.RejectsCleanly Γ b t key value isBucket s ↔
      t.Unharmed Γ.P Γ.need Γ.env.comparator key value isBucket := by
  cases t with
  | empty => exact iff_of_false (h.put_rejected_empty hbig) id
  | @tree D t =>
    have hroot : s.rootPgid = t.pgid := h.own.root
    obtain ⟨p, status, c, pgid, txid, s₁, hreached⟩ := h.put_reaches
    have := Γ.ok.trans
    cases hhit : p.hit with
    | none =>
      refine iff_of_false (hreached.put_absent hbig hhit) fun hall => ?_
      have hfind : find key t.contents = p.hit.map fun e => (e.value, e.isBucket) :=
        hreached.place.find_eq
      rw [hhit] at hfind
      cases hfind.symm.trans hall.2.1
    | some e =>
      exact (hreached.mono (Nat.le_add_right _ _)).put_present h.ordered h.full hroot hbig hhit

end Put

section Example

/-- A leaf of this transaction. -/
def ownLeaf (key value : Bytes) : Tree 0 := .leaf 2 2 [⟨key, value, false, 0⟩]

/-- A key that is longer than a page. -/
def hugeKey : Bytes := List.replicate 257 9

/-- A value that is too long. -/
def hugeValue : Bytes := List.replicate (kValueMaxSize + 1) 0

/-- A call that replaces an empty record. -/
theorem put_rejects_hugeValue :
    BTree.RejectsCleanly (layoutScope smallEnv smallEnv_ok freshMeta 1) 0 (.tree (ownLeaf [] [])) []
      hugeValue false (layout 256 freshMeta 2 (ownLeaf [] []).nodes) := by
  refine (put_rejects_iff (t := .tree (ownLeaf [] [])) (O := 0) ?_ (fun hadm => ?_) false).2 ?_
  · exact wellFormed_layout (t := ownLeaf [] []) (by decide) (by decide) (by decide)
      (by decide) (by decide)
  · have := hadm.value_le
    unfold hugeValue at this
    rw [List.length_replicate] at this
    omega
  · refine ⟨rfl, rfl, ?_, by decide⟩
    refine fits_of_half (layoutScope smallEnv smallEnv_ok freshMeta 1).hP ?_ [] hugeValue
    decide

/-- **The leaf has a second slot afterwards.** The key of 257 bytes belongs behind the record
of the leaf. -/
theorem not_put_rejects : ∃ (Γ : Scope) (b : ℕ) (t : Shape) (O : Multiset Obj) (s : TxState)
    (key value : Bytes) (isBucket : Bool),
    WellFormed Γ (b + t.rejectRoom Γ.P Γ.env.comparator key) t O s ∧ ¬ Admissible Γ.P key value ∧
      ¬ BTree.RejectsCleanly Γ b t key value isBucket s := by
  have hwf : WellFormed (layoutScope smallEnv smallEnv_ok freshMeta 1)
      (0 + (Shape.tree (ownLeaf [1] [2])).rejectRoom 256 byteOrder (hugeKey))
        (.tree (ownLeaf [1] [2])) 0
      (layout 256 freshMeta 2 (ownLeaf [1] [2]).nodes) :=
    wellFormed_layout (t := ownLeaf [1] [2]) (by decide) (by decide) (by decide)
      (by decide) (by decide)
  have hbig : ¬ Admissible 256 (hugeKey) [] := fun hadm => by
    have := hadm.key_le_page
    unfold hugeKey at this
    rw [List.length_replicate] at this
    omega
  refine ⟨layoutScope smallEnv smallEnv_ok freshMeta 1, 0, _, 0, _, hugeKey,
    [], false, hwf, hbig, ?_⟩
  obtain ⟨p, status, c, pgid, txid, s₁, hreached⟩ := hwf.put_reaches
  refine hreached.put_absent hbig ?_
  have hfind : find (hugeKey) (ownLeaf [1] [2]).contents = p.hit.map fun e =>
      (e.value, e.isBucket) :=
    hreached.place.find_eq
  rw [show find (hugeKey) (ownLeaf [1] [2]).contents = none from rfl] at hfind
  exact Option.map_eq_none_iff.1 hfind.symm

end Example

end AtomKV
