import Mathlib.Data.List.Basic
import Mathlib.Tactic.Common

/-!
# Weaving lists with separators

`weave ks ss` puts the separator `ss[i]` between the lists `ks[i]` and `ks[i + 1]`. Around one of
the lists it falls into the part before, `weavePre`, and the part after, `weavePost`.
-/

set_option autoImplicit false

namespace AtomKV

universe u

variable {α : Type u}

/-- Lists, each followed by its separator. -/
def weavePre (ks : List (List α)) (ss : List α) : List α :=
  (List.zipWith (fun k s => k ++ [s]) ks ss).flatten

/-- Lists, each preceded by its separator. -/
def weavePost (ss : List α) (ks : List (List α)) : List α :=
  (List.zipWith (fun s k => s :: k) ss ks).flatten

/-- Lists with separators between them. -/
def weave (ks : List (List α)) (ss : List α) : List α :=
  match ks with
  | [] => []
  | k :: ks => k ++ weavePost ss ks

@[simp] theorem weavePre_nil : weavePre ([] : List (List α)) [] = [] := rfl

@[simp] theorem weavePost_nil : weavePost ([] : List α) [] = [] := rfl

@[simp] theorem weavePre_cons (k : List α) (ks : List (List α)) (s : α) (ss : List α) :
    weavePre (k :: ks) (s :: ss) = k ++ s :: weavePre ks ss := by
  simp [weavePre]

@[simp] theorem weavePost_cons (k : List α) (ks : List (List α)) (s : α) (ss : List α) :
    weavePost (s :: ss) (k :: ks) = s :: k ++ weavePost ss ks := by
  simp [weavePost]

@[simp] theorem weave_singleton (k : List α) : weave [k] [] = k := by
  simp [weave]

theorem weavePre_append {ks ks' : List (List α)} {ss ss' : List α} (h : ks.length = ss.length) :
    weavePre (ks ++ ks') (ss ++ ss') = weavePre ks ss ++ weavePre ks' ss' := by
  unfold weavePre
  rw [List.zipWith_append h, List.flatten_append]

/-- **The weave around one of its lists.** -/
theorem weave_around (ks : List (List α)) (k : List α) (ks' : List (List α)) (ss ss' : List α)
    (h : ks.length = ss.length) :
    weave (ks ++ k :: ks') (ss ++ ss') = weavePre ks ss ++ (k ++ weavePost ss' ks') := by
  induction ks generalizing ss with
  | nil =>
    obtain rfl : ss = [] := List.length_eq_zero_iff.1 h.symm
    rfl
  | cons k₀ ks ih =>
    cases ss with
    | nil => simp at h
    | cons s ss =>
      have key := ih ss (by simpa using h)
      simp only [weavePre_cons, List.append_assoc, List.cons_append]
      rw [← key]
      cases ks <;> simp [weave]

/-- Two weaves with a separator between them. -/
theorem weave_append (ks ks' : List (List α)) (s : α) (ss ss' : List α)
    (h : ks.length = ss.length + 1) (h' : ks' ≠ []) :
    weave (ks ++ ks') (ss ++ s :: ss') = weave ks ss ++ s :: weave ks' ss' := by
  obtain ⟨ks, k, rfl⟩ : ∃ l k, ks = l ++ [k] := by
    rcases List.eq_nil_or_concat' ks with rfl | ⟨l, k, rfl⟩
    · simp at h
    · exact ⟨l, k, rfl⟩
  obtain ⟨k', ks', rfl⟩ := List.exists_cons_of_ne_nil h'
  have hlen : ks.length = ss.length := by simpa using h
  rw [List.append_assoc, List.singleton_append, weave_around _ _ _ _ _ hlen, weavePost_cons]
  have hself := weave_around ks k [] ss [] hlen
  rw [List.append_nil] at hself
  rw [hself]
  simp [weave]

/-- In an ordered sequence, what stands in front of separators is one of them or comes before one.
-/
theorem mem_weavePre {R : α → α → Prop} {ks : List (List α)} {ss : List α}
    (h : ks.length = ss.length) (hR : (weavePre ks ss).Pairwise R) {x : α}
    (hx : x ∈ weavePre ks ss) : x ∈ ss ∨ ∃ s ∈ ss, R x s := by
  induction ks generalizing ss with
  | nil =>
    obtain rfl : ss = [] := List.length_eq_zero_iff.1 h.symm
    simp at hx
  | cons k ks ih =>
    cases ss with
    | nil => simp at h
    | cons s ss =>
      rw [weavePre_cons, List.pairwise_append] at hR
      obtain ⟨-, hR, hk⟩ := hR
      rw [weavePre_cons] at hx
      rcases List.mem_append.1 hx with hx | hx
      · exact .inr ⟨s, List.mem_cons_self, hk x hx s List.mem_cons_self⟩
      · rcases List.mem_cons.1 hx with rfl | hx
        · exact .inl List.mem_cons_self
        · rcases ih (by simpa using h) (List.pairwise_cons.1 hR).2 hx with hmem | ⟨t, ht, hxt⟩
          · exact .inl (List.mem_cons_of_mem s hmem)
          · exact .inr ⟨t, List.mem_cons_of_mem s ht, hxt⟩

/-- In an ordered sequence, what stands behind separators is one of them or comes after one. -/
theorem mem_weavePost {R : α → α → Prop} {ks : List (List α)} {ss : List α}
    (h : ks.length = ss.length) (hR : (weavePost ss ks).Pairwise R) {x : α}
    (hx : x ∈ weavePost ss ks) : x ∈ ss ∨ ∃ s ∈ ss, R s x := by
  induction ks generalizing ss with
  | nil =>
    obtain rfl : ss = [] := List.length_eq_zero_iff.1 h.symm
    simp at hx
  | cons k ks ih =>
    cases ss with
    | nil => simp at h
    | cons s ss =>
      rw [weavePost_cons, List.cons_append, List.pairwise_cons, List.pairwise_append] at hR
      obtain ⟨hs, -, hR, -⟩ := hR
      rw [weavePost_cons, List.cons_append] at hx
      rcases List.mem_cons.1 hx with rfl | hx
      · exact .inl List.mem_cons_self
      · rcases List.mem_append.1 hx with hk | hx
        · exact .inr ⟨s, List.mem_cons_self, hs x (List.mem_append_left _ hk)⟩
        · rcases ih (by simpa using h) hR hx with hmem | ⟨t, ht, hxt⟩
          · exact .inl (List.mem_cons_of_mem s hmem)
          · exact .inr ⟨t, List.mem_cons_of_mem s ht, hxt⟩

/-- The separators occur in the weave in their order. -/
theorem sublist_weave {ks : List (List α)} {ss : List α} (h : ks.length = ss.length + 1) :
    ss.Sublist (weave ks ss) := by
  have key : ∀ (ks : List (List α)) (ss : List α), ks.length = ss.length →
      ss.Sublist (weavePost ss ks) := by
    intro ks
    induction ks with
    | nil =>
      intro ss h
      obtain rfl : ss = [] := List.length_eq_zero_iff.1 h.symm
      exact List.Sublist.refl _
    | cons k ks ih =>
      intro ss h
      cases ss with
      | nil => simp at h
      | cons s ss =>
        rw [weavePost_cons, List.cons_append]
        exact ((ih ss (by simpa using h)).trans (List.sublist_append_right k _)).cons_cons s
  cases ks with
  | nil => simp at h
  | cons k ks => exact (key ks ss (by simpa using h)).trans (List.sublist_append_right k _)

theorem mem_weavePre_of_mem {ks : List (List α)} {ss : List α} (h : ks.length = ss.length) {x : α}
    (hx : x ∈ ss) : x ∈ weavePre ks ss := by
  induction ks generalizing ss with
  | nil =>
    obtain rfl : ss = [] := List.length_eq_zero_iff.1 h.symm
    simp at hx
  | cons k ks ih =>
    cases ss with
    | nil => simp at h
    | cons s ss =>
      rw [weavePre_cons]
      rcases List.mem_cons.1 hx with rfl | hx
      · simp
      · exact List.mem_append_right _ (List.mem_cons_of_mem _ (ih (by simpa using h) hx))

theorem mem_weavePost_of_mem {ks : List (List α)} {ss : List α} (h : ks.length = ss.length) {x : α}
    (hx : x ∈ ss) : x ∈ weavePost ss ks := by
  induction ks generalizing ss with
  | nil =>
    obtain rfl : ss = [] := List.length_eq_zero_iff.1 h.symm
    simp at hx
  | cons k ks ih =>
    cases ss with
    | nil => simp at h
    | cons s ss =>
      rw [weavePost_cons]
      rcases List.mem_cons.1 hx with rfl | hx
      · simp
      · exact List.mem_append_right _ (ih (by simpa using h) hx)

/-- What holds of all members of a weave. -/
theorem forall_mem_weavePost {p : α → Prop} {ss : List α} {ks : List (List α)}
    (h : ks.length = ss.length) :
    (∀ x ∈ weavePost ss ks, p x) ↔ (∀ k ∈ ks, ∀ x ∈ k, p x) ∧ ∀ s ∈ ss, p s := by
  induction ks generalizing ss with
  | nil =>
    obtain rfl : ss = [] := List.length_eq_zero_iff.1 h.symm
    simp
  | cons k ks ih =>
    cases ss with
    | nil => simp at h
    | cons s ss =>
      rw [weavePost_cons, List.cons_append, List.forall_mem_cons, List.forall_mem_append,
        ih (Nat.succ.inj h), List.forall_mem_cons, List.forall_mem_cons]
      tauto

theorem forall_mem_weave {p : α → Prop} {ss : List α} {ks : List (List α)}
    (h : ks.length = ss.length + 1) :
    (∀ x ∈ weave ks ss, p x) ↔ (∀ k ∈ ks, ∀ x ∈ k, p x) ∧ ∀ s ∈ ss, p s := by
  cases ks with
  | nil => simp at h
  | cons k ks =>
    rw [weave, List.forall_mem_append, forall_mem_weavePost (Nat.succ.inj h),
      List.forall_mem_cons, and_assoc]

end AtomKV
