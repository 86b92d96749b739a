import AtomKV.Traversal

/-!
# Equality of iterators

`BTreeIterator::operator==` looks at the status of one side only, and takes an empty stack for
`end()` when the other side is invalid. An iterator that has run off the tree has an empty stack and
a valid status: it does not equal itself.
-/

set_option autoImplicit false

namespace AtomKV

/-- `BTreeIterator::operator==`, for iterators of one tree. -/
def BTreeIterator.eq (iter right : BTreeIterator) : Bool :=
  match iter.stack, right.stack with
  | [], _ => right.status = .kInvalid
  | _ :: _, [] => iter.status = .kInvalid
  | front :: _, front' :: _ => front = front'

/-- Off the tree, the last record comes before. -/
theorem BTreeIterator.prev_of_off (status : Status) (s : TxState) :
    BTreeIterator.prev ⟨[], status⟩ s = BTreeIterator.last ⟨[], status⟩ s.rootPgid s := rfl

/-- The iterators of a tree. -/
inductive BTree.Obtained (env : Env) (s : TxState) : BTreeIterator → Prop
  | begin {iter : BTreeIterator} (h : BTree.begin s = (.ok iter, s)) : Obtained env s iter
  | atEnd : Obtained env s .init
  | get {iter : BTreeIterator} (key : Bytes) (h : BTree.get env key s = (.ok iter, s)) :
      Obtained env s iter
  | lowerBound {iter : BTreeIterator} (key : Bytes)
      (h : BTree.lowerBound env key s = (.ok iter, s)) :
      Obtained env s iter
  | next {iter iter' : BTreeIterator} (hiter : Obtained env s iter)
      (h : iter.next s = (.ok iter', s)) :
      Obtained env s iter'
  | prev {iter iter' : BTreeIterator} (hiter : Obtained env s iter)
      (h : iter.prev s = (.ok iter', s)) :
      Obtained env s iter'

/-- Equality is an equivalence relation, and all iterators that are at no record are equal to each
other and to `end()`. -/
structure BTree.EqualityLaws (env : Env) (s : TxState) : Prop where
  refl : ∀ a, Obtained env s a → a.eq a = true
  symm : ∀ a b, Obtained env s a → Obtained env s b → a.eq b = true → b.eq a = true
  trans : ∀ a b c, Obtained env s a → Obtained env s b → Obtained env s c → a.eq b = true →
    b.eq c = true → a.eq c = true
  atEnd : ∀ a b, Obtained env s a → Obtained env s b → (¬ ∃ d, a.IsAt env s d) →
    (¬ ∃ d, b.IsAt env s d) → a.eq b = true ∧ a.eq .init = true

section Laws

variable {env : Env} {s : TxState}

/-- Without a root page there is only `end()`. -/
theorem BTree.Obtained.eq_init (hroot : s.rootPgid = kPageInvalidId) {iter : BTreeIterator}
    (h : Obtained env s iter) : iter = .init := by
  have hlower := fun key => BTree.lowerBound_empty env key hroot
  induction h with
  | begin h =>
    rw [BTree.begin_empty hroot] at h
    exact (Except.ok.inj (Prod.mk.inj h).1).symm
  | atEnd => rfl
  | get key h =>
    unfold BTree.get at h
    rw [Exec.bind_of_ok (hlower key)] at h
    exact (Except.ok.inj (Prod.mk.inj h).1).symm
  | lowerBound key h =>
    rw [hlower key] at h
    exact (Except.ok.inj (Prod.mk.inj h).1).symm
  | next _ h ih =>
    subst ih
    cases (Prod.mk.inj h).1
  | prev _ h ih =>
    -- the last record is looked for in a page that does not exist
    subst ih
    have hfail : BTreeIterator.prev .init s = (.error .assertion, s) := by
      have hprev : BTreeIterator.prev .init s = BTreeIterator.last .init s.rootPgid s :=
        BTreeIterator.prev_of_off _ s
      rw [hprev, hroot]
      rfl
    rw [hfail] at h
    cases (Prod.mk.inj h).1

/-- Iterating from `begin()` ends with an iterator that has left the tree. -/
theorem Shows.exists_past {D : ℕ} {t : Tree D} (h : Shows env (.tree t) s) (hfull : t.RootFull) :
    BTree.Obtained env s ⟨[], .kIter⟩ := by
  rcases h.begin_cases hfull with ⟨p, e, htree, hhit, -, hrun⟩ | ⟨-, hrun⟩
  · have hwalk : BTreeIterator.Forward env s ⟨p.stack, .kIter⟩ (e.data :: p.future) :=
      Place.forward (htree.symm ▸ h.readable) (htree.symm ▸ hfull) h.depth_lt
        hhit (fun h => by cases h)
    obtain ⟨iter, ⟨hob, hiter⟩, hdone⟩ :=
      hwalk.exists_done (R := fun iter => BTree.Obtained env s iter ∧
      (iter = ⟨[], .kIter⟩ ∨ ∃ (p : Place D) (e : Entry), p.tree = t ∧ p.hit = some e ∧
        iter = ⟨p.stack, .kIter⟩))
      ⟨.begin hrun, .inr ⟨p, e, htree, hhit, rfl⟩⟩ (by
        rintro iter iter' ⟨hob, rfl | ⟨p, e, htree, hhit, rfl⟩⟩ hdone hstep
        · exact absurd (.inl rfl) hdone
        · refine ⟨.next hob hstep, ?_⟩
          rcases p.next (htree.symm ▸ h.readable) (htree.symm ▸ hfull) h.depth_lt hhit .kIter with
            ⟨-, hrun⟩ | ⟨p', e', status', htree', hhit', -, hst, hrun⟩
          · rw [hstep] at hrun
            exact .inl (Except.ok.inj (Prod.mk.inj hrun).1)
          · rw [hstep] at hrun
            obtain rfl : status' = .kIter := hst.elim id id
            exact .inr ⟨p', e', htree'.trans htree, hhit', Except.ok.inj (Prod.mk.inj hrun).1⟩)
    rcases hiter with rfl | ⟨p, e, -, -, rfl⟩
    · exact hob
    · exact hdone.elim (fun h => by cases h) fun h => by cases h
  · exact .begin hrun

/-- **Equality of iterators obeys its laws exactly when the tree has no root page.** -/
theorem Shows.equalityLaws_iff {t : Shape} (h : Shows env t s) (hfull : t.RootFull) :
    BTree.EqualityLaws env s ↔ s.rootPgid = kPageInvalidId := by
  constructor
  · intro hlaws
    cases t with
    | empty => exact h.root
    | tree t => cases hlaws.refl _ (h.exists_past hfull)
  · intro hroot
    have hinit : ∀ a, BTree.Obtained env s a → a = .init := fun a ha => ha.eq_init hroot
    constructor
    · intro a ha
      rw [hinit a ha]
      rfl
    · intro a b ha hb _
      rw [hinit a ha, hinit b hb]
      rfl
    · intro a b c ha _ hc _ _
      rw [hinit a ha, hinit c hc]
      rfl
    · intro a b ha hb _ _
      rw [hinit a ha, hinit b hb]
      exact ⟨rfl, rfl⟩

/-- In a new file the laws hold. -/
theorem equalityLaws_empty :
    BTree.EqualityLaws smallEnv (layout 256 freshMeta kPageInvalidId []) := by
  have hwf : WellFormed (layoutScope smallEnv smallEnv_ok freshMeta 0) 0 .empty 0
      (layout 256 freshMeta kPageInvalidId []) := wellFormed_empty (by decide)
  exact (hwf.shows.equalityLaws_iff trivial).2 rfl

/-- **An iterator that does not equal itself.** Behind the last of three records. -/
theorem not_equalityLaws : ¬ BTree.EqualityLaws smallEnv twoLeavesState := by
  intro hlaws
  have hroot := (shows_twoLeaves.equalityLaws_iff fullRoot_twoLeaves).1 hlaws
  revert hroot
  decide

end Laws

end AtomKV
