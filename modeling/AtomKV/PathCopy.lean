import AtomKV.Search

/-!
# Copying a path

`BTreeIterator::CopyAllPagesByPath` goes up from the leaf and copies every page that must not be
written in place; at the first page that may be written it enters the copy made below and stops. The
pages further up are then writable as well: this is what `Tree.Safe` says about a tree.
-/

set_option autoImplicit false

namespace AtomKV

/-- The pages that the transaction of `Γ` copies before it writes them. -/
def Scope.need (Γ : Scope) (txid : Nat) : Bool := BTreeIterator.copyNeeded Γ.env Γ.txid txid

/-- A page of the transaction itself is not copied again. -/
theorem Scope.need_self (Γ : Scope) : Γ.need Γ.txid = false := by
  unfold Scope.need BTreeIterator.copyNeeded
  split_ifs <;> simp

/-! ## Safety along a path -/

namespace Ctx

/-- The branches of the path may be written. -/
def Free (keep : Nat → Prop) : {d D : ℕ} → Ctx d D → Prop
  | _, _, .top => True
  | _, _, .under f c => ¬ keep f.pgid ∧ c.Free keep

/-- The other children of the branches are safe. -/
def SidesSafe (need : Nat → Bool) (keep : Nat → Prop) : {d D : ℕ} → Ctx d D → Prop
  | _, _, .top => True
  | _, _, .under f c => (∀ k ∈ f.ksL, k.Safe need keep) ∧ (∀ k ∈ f.ksR, k.Safe need keep) ∧
      c.SidesSafe need keep

/-- All branches of the path have to be copied. -/
def AllNeed (need : Nat → Bool) : {d D : ℕ} → Ctx d D → Prop
  | _, _, .top => True
  | _, _, .under f c => need f.txid = true ∧ c.AllNeed need

/-- The keys to the left and to the right of the path, from the hole up. -/
def levels : {d D : ℕ} → Ctx d D → List (List Entry × List Entry)
  | _, _, .top => []
  | _, _, .under f c => (f.esL, f.esR) :: c.levels

variable {need : Nat → Bool} {keep : Nat → Prop}

theorem safe_fill {d : ℕ} (f : Frame d) (t : Tree d) : (f.fill t).Safe need keep ↔
    (∀ k ∈ f.ksL, k.Safe need keep) ∧ t.Safe need keep ∧ (∀ k ∈ f.ksR, k.Safe need keep) ∧
      (keep f.pgid → need f.txid = true ∧ (∀ k ∈ f.ksL, Tree.Safe.AllNeed need k) ∧
        Tree.Safe.AllNeed need t ∧ ∀ k ∈ f.ksR, Tree.Safe.AllNeed need k) := by
  show ((∀ k ∈ f.ksL ++ t :: f.ksR, k.Safe need keep) ∧ (keep f.pgid → need f.txid = true ∧
    ∀ k ∈ f.ksL ++ t :: f.ksR, Tree.Safe.AllNeed need k)) ↔ _
  simp only [List.mem_append, List.mem_cons, or_imp, forall_and, forall_eq]
  tauto

theorem allNeed_fill {d : ℕ} (f : Frame d) (t : Tree d) (h : Tree.Safe.AllNeed need (f.fill t)) :
    need f.txid = true ∧ Tree.Safe.AllNeed need t :=
  ⟨h.1, h.2 t (List.mem_append_right _ List.mem_cons_self)⟩

/-- A writable path between safe trees. -/
theorem safe_plug {d D : ℕ} (c : Ctx d D) (t : Tree d) (hfree : c.Free keep)
    (hsides : c.SidesSafe need keep) (ht : t.Safe need keep) : (c.plug t).Safe need keep := by
  induction c with
  | top => exact ht
  | under f c ih =>
    obtain ⟨h1, h2, h3⟩ := hsides
    exact ih (f.fill t) hfree.2 h3 ((safe_fill f t).2 ⟨h1, ht, h2, fun hk => absurd hk hfree.1⟩)

/-- Above a page that is not copied everything may be written. -/
theorem of_safe_plug {d D : ℕ} (c : Ctx d D) (t : Tree d) (h : (c.plug t).Safe need keep) :
    c.SidesSafe need keep ∧ t.Safe need keep ∧ (¬ Tree.Safe.AllNeed need t → c.Free keep) := by
  induction c with
  | top => exact ⟨trivial, h, fun _ => trivial⟩
  | under f c ih =>
    obtain ⟨hsides, hfill, hfree⟩ := ih (f.fill t) h
    obtain ⟨h1, h2, h3, h4⟩ := (safe_fill f t).1 hfill
    refine ⟨⟨h1, h3, hsides⟩, h2, fun hnot => ⟨fun hk => hnot (h4 hk).2.2.1, hfree fun hall => ?_⟩⟩
    exact hnot (allNeed_fill f t hall).2

end Ctx

/-- A frame that belongs to another page. -/
def Frame.moved {d : ℕ} (f : Frame d) (pgid txid : Nat) : Frame d :=
  { f with pgid := pgid, txid := txid }

/-- Two paths that differ in their pages only. -/
inductive Ctx.Alike : {d D : ℕ} → Ctx d D → Ctx d D → Prop where
  | top {D : ℕ} : Ctx.Alike (Ctx.top : Ctx D D) Ctx.top
  | under {d D : ℕ} (f : Frame d) (pgid txid : Nat) {c c' : Ctx (d + 1) D} (h : Ctx.Alike c c') :
      Ctx.Alike (.under f c) (.under (f.moved pgid txid) c')

namespace Ctx.Alike

variable {d D : ℕ} {c c' : Ctx d D}

theorem refl (c : Ctx d D) : Alike c c := by
  induction c with
  | top => exact .top
  | under f c ih => exact .under f f.pgid f.txid ih

theorem before_eq (h : Alike c c') : c'.before = c.before := by
  induction h with
  | top => rfl
  | under f pgid txid _ ih =>
    rw [Ctx.before, Ctx.before, ih]
    rfl

theorem after_eq (h : Alike c c') : c'.after = c.after := by
  induction h with
  | top => rfl
  | under f pgid txid _ ih =>
    rw [Ctx.after, Ctx.after, ih]
    rfl

theorem levels_eq (h : Alike c c') : c'.levels = c.levels := by
  induction h with
  | top => rfl
  | under f pgid txid _ ih =>
    rw [Ctx.levels, Ctx.levels, ih]
    rfl

theorem full_iff (h : Alike c c') : c'.Full ↔ c.Full := by
  induction h with
  | top => rfl
  | under f pgid txid _ ih =>
    rw [Ctx.Full, Ctx.Full, ih]
    rfl

theorem sidesSafe {need : Nat → Bool} {keep : Nat → Prop} (h : Alike c c')
    (hs : c.SidesSafe need keep) : c'.SidesSafe need keep := by
  induction h with
  | top => trivial
  | under f pgid txid _ ih => exact ⟨hs.1, hs.2.1, ih hs.2.2⟩

end Ctx.Alike

/-- The path after the loop: up to the first page that need not be copied all pages are copies. -/
inductive Ctx.Copied (need : Nat → Bool) (current : Nat) :
    {d D : ℕ} → Ctx d D → Ctx d D → Prop where
  | top {D : ℕ} : Ctx.Copied need current (Ctx.top : Ctx D D) Ctx.top
  | stop {d D : ℕ} (f : Frame d) (c : Ctx (d + 1) D) (h : need f.txid = false) :
      Ctx.Copied need current (.under f c) (.under f c)
  | under {d D : ℕ} (f : Frame d) (pgid : Nat) {c c' : Ctx (d + 1) D} (h : need f.txid = true)
      (hc : Ctx.Copied need current c c') : Ctx.Copied need current (.under f c)
        (.under (f.moved pgid current) c')

theorem Ctx.Copied.alike {need : Nat → Bool} {current d D : ℕ} {c c' : Ctx d D}
    (h : Ctx.Copied need current c c') : Ctx.Alike c c' := by
  induction h with
  | top => exact .top
  | stop f c _ => exact Ctx.Alike.refl _
  | under f pgid _ _ ih => exact .under f pgid current ih

/-- The leaf of the place and the path above it after the loop. -/
def Place.Copied (need : Nat → Bool) (current : Nat) {D : ℕ} (p : Place D) (c : Ctx 0 D)
    (pgid txid : Nat) : Prop :=
  (need p.txid = true ∧ txid = current ∧ Ctx.Copied need current p.ctx c) ∨
    (need p.txid = false ∧ pgid = p.pgid ∧ txid = p.txid ∧ c = p.ctx)

theorem Place.Copied.alike {need : Nat → Bool} {current D pgid txid : ℕ} {p : Place D} {c : Ctx 0 D}
    (h : p.Copied need current c pgid txid) : Ctx.Alike p.ctx c := by
  rcases h with ⟨-, -, hc⟩ | ⟨-, -, -, rfl⟩
  · exact hc.alike
  · exact Ctx.Alike.refl _

/-! ## The loop -/

section Copy

variable {Γ : Scope} {b r : ℕ} {O : Multiset Obj} {s : TxState}

open BTreeIterator

namespace Own

/-- The page that `CopyAllPagesByPath` looks at. -/
theorem getNode_txid {q : Nat} {v : NodeView} (h : Own Γ b r (.node q v ::ₘ O) s) :
    ∃ n, Pager.getNode q s = (.ok n, s) ∧ n.lastModifiedTxid = v.txid ∧
      n.isBranch = v.kids.isSome := by
  obtain ⟨n, hrep, hget, -⟩ := h.read_node
  exact ⟨n, hget, hrep.txid, hrep.isBranch_eq⟩

/-- The page in the hole of a frame is replaced. -/
theorem setHole {d : ℕ} (f : Frame d) {x : Nat} (h : Own Γ b r (f.obj x ::ₘ O) s)
    (hf : ¬ Γ.keep f.pgid) (y : Nat) :
    ∃ s', BranchNode.setLeftChild f.pgid f.esL.length y s = (.ok (), s') ∧
      Own Γ b r (f.obj y ::ₘ O) s' := by
  have h' := h.setLeftChild hf y
  rw [List.length_map, f.lenL] at h'
  exact h'

theorem copyPath {d D : ℕ} (c : Ctx d D) (t : Tree d) (y : Nat)
    (h : Own Γ (b + c.stack.length) r (c.objs t.pgid + O) s)
    (hsafe : (c.plug t).Safe Γ.need Γ.keep) :
    Exec.Ok (copyPath Γ.env c.stack (some y)) s fun res s' => ∃ c' : Ctx d D,
      Ctx.Copied Γ.need Γ.txid c c' ∧ res.1 = c'.stack ∧ c'.Free Γ.keep ∧
      Own Γ b r (c'.objs y + O) s' ∧ (res.2 = some (c'.rootId y) ∧ c.AllNeed Γ.need ∧
        (y ≠ t.pgid → c'.rootId y ≠ c.rootId t.pgid) ∨
        res.2 = none ∧ ¬ c.AllNeed Γ.need ∧ c'.rootId y = c.rootId t.pgid) := by
  -- On the path, from the leaf upwards: `y` is the child that the level below has just copied.
  induction c generalizing b s O y with
  | top =>
    exact Exec.Ok.intro ([], some y) s rfl
      ⟨.top, .top, rfl, trivial, h, .inl ⟨rfl, trivial, fun hy => hy⟩⟩
  | under f c ih =>
    obtain ⟨hsides, hfill, hfree⟩ := Ctx.of_safe_plug c (f.fill t) hsafe
    obtain ⟨-, -, -, hkeep⟩ := (Ctx.safe_fill f t).1 hfill
    have h₀ : Own Γ (b + c.stack.length + 1) r (f.obj t.pgid ::ₘ (f.sideObjs + c.objs f.pgid + O))
        s := by
      refine (h.room_mono _ (by simp only [Ctx.stack, List.length_cons]; omega)).perm ?_
      simp only [Ctx.objs, Multiset.cons_add]
    obtain ⟨n, hget, htxid, hbranch⟩ := h₀.getNode_txid
    -- The copy goes on above a page that was copied, and ends at the first one that may be written.
    by_cases hneed : Γ.need f.txid = true
    · have hrun : BTreeIterator.copyPath Γ.env (Ctx.under f c).stack (some y) s =
          (do
            let newPgid ← Node.copy f.pgid
            BranchNode.setLeftChild newPgid f.esL.length y
            let upper ← BTreeIterator.copyPath Γ.env c.stack (some newPgid)
            return ((newPgid, f.esL.length) :: upper.1, upper.2) :
              TxM (List (Nat × Nat) × Option Nat)) s := by
        simp only [Ctx.stack]
        conv_lhs => unfold BTreeIterator.copyPath
        rw [Exec.bind_of_ok hget, Exec.read_bind, h.txid_eq, htxid, hbranch]
        exact congrFun (if_pos hneed) s
      refine Exec.Ok.of_run_eq hrun ?_
      obtain ⟨q, s₁, hcopy, hq, hnew, h₁, -⟩ := h₀.copy
      obtain ⟨s₂, hset, h₂⟩ := Own.setHole (f.moved q Γ.txid) h₁ hq y
      -- The rest of the path is copied around the new page, which the old one is no longer part of.
      obtain ⟨⟨rest, root⟩, s₃, hrest, c', hcopied, hstack, hfree', h₃, hroot⟩ :=
        ih (b := b) (O := (f.moved q Γ.txid).obj y ::ₘ (f.sideObjs + O)) (f.fill t) q
          ((h₂.room_mono _ (by omega)).perm (by
            show _ = c.objs f.pgid + _
            simp only [← Multiset.singleton_add]
            abel)) hsafe
      refine Exec.Ok.intro ((q, f.esL.length) :: rest, root) s₃ ?_
        ⟨.under (f.moved q Γ.txid) c', .under f q hneed hcopied, ?_, ⟨hq, hfree'⟩, ?_, ?_⟩
      · rw [Exec.bind_of_ok hcopy]
        show (BranchNode.setLeftChild q f.esL.length y >>= _) s₁ = _
        rw [Exec.bind_of_ok (show BranchNode.setLeftChild q f.esL.length y s₁ = _ from hset),
          Exec.bind_of_ok hrest]
        rfl
      · show _ :: rest = _ :: c'.stack
        rw [show rest = c'.stack from hstack]
        rfl
      · refine h₃.perm ?_
        show _ = (f.moved q Γ.txid).obj y ::ₘ (f.sideObjs + c'.objs q) + O
        simp only [← Multiset.singleton_add]
        abel
      · rcases hroot with ⟨hsome, hall, hmoved⟩ | ⟨hnone, hnot, hsame⟩
        · exact .inl ⟨hsome, ⟨hneed, hall⟩, fun _ => hmoved hnew⟩
        · exact .inr ⟨hnone, fun hall => hnot hall.2, hsame⟩
    · have hrun : BTreeIterator.copyPath Γ.env (Ctx.under f c).stack (some y) s =
          (do
            BranchNode.setLeftChild f.pgid f.esL.length y
            return ((f.pgid, f.esL.length) :: c.stack, none) : TxM (List (Nat × Nat) × Option Nat))
              s := by
        simp only [Ctx.stack]
        conv_lhs => unfold BTreeIterator.copyPath
        rw [Exec.bind_of_ok hget, Exec.read_bind, h.txid_eq, htxid, hbranch]
        exact congrFun (if_neg hneed) s
      refine Exec.Ok.of_run_eq hrun ?_
      -- A page that the code does not copy is none that has to be kept.
      have hk : ¬ Γ.keep f.pgid := fun hk => hneed (hkeep hk).1
      obtain ⟨s₁, hset, h₁⟩ := h₀.setHole f hk y
      refine Exec.Ok.intro ((f.pgid, f.esL.length) :: c.stack, none) s₁ ?_
        ⟨.under f c, .stop f c (Bool.eq_false_iff.2 hneed), rfl, ⟨hk, hfree fun hall => ?_⟩, ?_,
          .inr ⟨rfl, fun hall => hneed hall.1, rfl⟩⟩
      · rw [Exec.bind_of_ok hset]
        rfl
      · exact hneed (Ctx.allNeed_fill f t hall).1
      · refine (h₁.room_mono _ (by omega)).perm ?_
        simp only [Ctx.objs, Multiset.cons_add]

/-- **`CopyAllPagesByPath`.** The place has moved to a path whose pages may be written. -/
theorem copyAllPagesByPath {D : ℕ} (p : Place D) (status : Status)
    (h : Own Γ (b + (D + 1)) p.tree.pgid (p.tree.objs + O) s) (hsafe : p.tree.Safe Γ.need Γ.keep) :
    Exec.Ok (copyAllPagesByPath Γ.env ⟨p.stack, status⟩) s fun iter s' =>
      ∃ (c : Ctx 0 D) (pgid txid : Nat), iter = ⟨(pgid, p.left.length) :: c.stack, status⟩ ∧
        p.Copied Γ.need Γ.txid c pgid txid ∧ c.Free Γ.keep ∧ c.SidesSafe Γ.need Γ.keep ∧
        ¬ Γ.keep pgid ∧
        Own Γ b (c.rootId pgid) (.node pgid (.leaf txid p.entries) ::ₘ (c.objs pgid + O)) s' ∧
        (c.rootId pgid = p.tree.pgid ↔ ¬ (Γ.need p.txid = true ∧ p.ctx.AllNeed Γ.need)) ∧
        ∃ n, s.pager.pages p.pgid = .node n ∧
          s'.pager.pages pgid = .node { n with lastModifiedTxid := txid } := by
  obtain ⟨hsides, hleaf, hfree⟩ := Ctx.of_safe_plug p.ctx (.leaf p.pgid p.txid p.entries) hsafe
  have hlen := p.ctx.length_stack
  have hroot : p.tree.pgid = p.ctx.rootId p.pgid := p.ctx.pgid_plug _
  have h₀ : Own Γ (b + p.ctx.stack.length + 1) (p.ctx.rootId p.pgid)
      (.node p.pgid (.leaf p.txid p.entries) ::ₘ (p.ctx.objs p.pgid + O)) s := by
    rw [hroot] at h
    refine (h.room_mono _ (by omega)).perm ?_
    unfold Place.tree
    rw [Ctx.objs_plug, Tree.objs_leaf]
    simp only [Tree.pgid_leaf, ← Multiset.singleton_add]
    abel
  obtain ⟨n, hget, htxid, hbranch⟩ := h₀.getNode_txid
  have hstack : ¬ (⟨p.stack, status⟩ : BTreeIterator).stack = [] := List.cons_ne_nil _ _
  by_cases hneed : Γ.need p.txid = true
  · obtain ⟨q, s₁, hcopy, hq, hnew, h₁, m, hm, hm'⟩ := h₀.copy
    -- the copy is followed as a page, whose content the loop leaves alone
    obtain ⟨n', hrep', h₁'⟩ := h₁.unfold_node
    obtain ⟨⟨rest, root⟩, s₂, hrest, c, hcopied, hrest', hfree', h₂, hcases⟩ :=
      Own.copyPath (b := b) (O := .page q (.node n') ::ₘ (recordsOf Γ.P p.entries + O)) p.ctx
        (.leaf p.pgid p.txid p.entries) q (h₁'.perm (by
          rw [Tree.pgid_leaf]
          simp only [← Multiset.singleton_add]
          abel)) hsafe
    have h₂'' : Own Γ b (p.ctx.rootId p.pgid)
        (.page q (.node n') ::ₘ (recordsOf Γ.P p.entries + (c.objs q + O))) s₂ := h₂.perm (by
      simp only [← Multiset.singleton_add]
      abel)
    have h₂' : Own Γ b (p.ctx.rootId p.pgid) (.node q (.leaf Γ.txid p.entries) ::ₘ (c.objs q + O))
        s₂ :=
      h₂''.fold_node rfl hrep'
    have hpage : ∃ n, s.pager.pages p.pgid = .node n ∧
        s₂.pager.pages q = .node { n with lastModifiedTxid := Γ.txid } := by
      refine ⟨m, hm, ?_⟩
      have hn' : s₁.pager.pages q = .node n' := h₁'.rep _ (Multiset.mem_cons_self _ _)
      have hn'' : s₂.pager.pages q = .node n' := h₂''.rep _ (Multiset.mem_cons_self _ _)
      rw [hn'', ← hn', hm']
    have hpath : BTreeIterator.copyPath Γ.env p.stack none s =
        (.ok ((q, p.left.length) :: rest, root), s₂) := by
      unfold Place.stack BTreeIterator.copyPath
      rw [Exec.bind_of_ok hget, Exec.read_bind, h.txid_eq, htxid, hbranch]
      refine (congrFun (if_pos hneed) s).trans ?_
      rw [Exec.bind_of_ok hcopy]
      show (BTreeIterator.copyPath Γ.env p.ctx.stack (some q) >>= _) s₁ = _
      rw [Exec.bind_of_ok hrest]
      rfl
    obtain rfl : rest = c.stack := hrest'
    -- the root of the tree is set when its page was copied
    rcases hcases with ⟨hroot', hall, hmoved⟩ | ⟨hroot', hnot, hsame⟩
    · obtain rfl : root = some (c.rootId q) := hroot'
      refine Exec.Ok.intro _ _ ?_ ⟨c, q, Γ.txid, rfl, .inl ⟨hneed, rfl, hcopied⟩, hfree',
        hcopied.alike.sidesSafe hsides, hq,
        h₂'.setRoot (c.rootId q),
          ⟨fun heq => absurd (heq.trans hroot) (hmoved hnew), fun hno => absurd ⟨hneed, hall⟩ hno⟩,
        hpage⟩
      unfold BTreeIterator.copyAllPagesByPath
      rw [if_neg hstack, Exec.bind_of_ok hpath]
      rfl
    · obtain rfl : root = none := hroot'
      refine Exec.Ok.intro _ _ ?_ ⟨c, q, Γ.txid, rfl, .inl ⟨hneed, rfl, hcopied⟩, hfree',
        hcopied.alike.sidesSafe hsides, hq,
        hsame ▸ h₂', ⟨fun _ hall => hnot hall.2, fun _ => hsame.trans hroot.symm⟩, hpage⟩
      unfold BTreeIterator.copyAllPagesByPath
      rw [if_neg hstack, Exec.bind_of_ok hpath]
      rfl
  · have hk : ¬ Γ.keep p.pgid := fun hk => hneed (hleaf hk)
    have hpath : BTreeIterator.copyPath Γ.env p.stack none s = (.ok (p.stack, none), s) := by
      unfold Place.stack BTreeIterator.copyPath
      rw [Exec.bind_of_ok hget, Exec.read_bind, h.txid_eq, htxid, hbranch]
      exact congrFun (if_neg hneed) s
    refine Exec.Ok.intro _ s ?_
      ⟨p.ctx, p.pgid, p.txid, rfl, .inr ⟨Bool.eq_false_iff.2 hneed, rfl, rfl, rfl⟩,
      hfree fun hall => hneed hall, hsides, hk, h₀.room_mono _ (by omega),
        ⟨fun _ hall => hneed hall.1, fun _ => hroot.symm⟩, ?_⟩
    · unfold BTreeIterator.copyAllPagesByPath
      rw [if_neg hstack, Exec.bind_of_ok hpath]
      rfl
    · obtain ⟨n, hrep, -, hn, -⟩ := h₀.read_node
      refine ⟨n, hn, hn.trans (congrArg Page.node ?_)⟩
      rw [← show n.lastModifiedTxid = p.txid from hrep.txid]

end Own

end Copy

end AtomKV
