import LakeVilla.Concurrency.RelyGuarantee
import LakeVilla.Keys.UpdateHalves
import LakeVilla.Keys.Without

/-!
# The halves of an update do not disturb each other

The remover works on the table without the adder's file, and leaves that file alone; the adder
leaves everything else alone. The adder's file is marked as the update's own before it appears in
the snapshot, so the remover skips it whenever it finds it. What the remover does is therefore what
`removeFile` does alone.
-/

namespace LakeVilla.Keys

open Concurrency ByteString Relation

variable {σ ρ : Type} {out : Outside σ ρ} {own : ByteString} {prev : ℕ}

/-! ## The protocol -/

/-- What a state holds of the adder's file. -/
structure OwnFile (σ ρ : Type) where
  path : ByteString
  entry : Option DeltaLogEntry
  created : Option FileStats
  deleted : Option FileStats
  stored : Option (DataTable σ ρ)

def State.ownFile (own : ByteString) (st : State σ ρ) : OwnFile σ ρ where
  path := st.table.fullPath own
  entry := st.table.deltaLog.files.lookup own
  created := st.table.createdFiles.lookup (st.table.fullPath own)
  deleted := st.table.deletedFiles.lookup (st.table.fullPath own)
  stored := st.stored (st.table.fullPath own)

/-- The file is created for the update. -/
def OwnFile.Marked (prev : ℕ) (f : OwnFile σ ρ) : Prop :=
  f.created.map (·.updateId) = some (some prev)

/-- A file of the adder in the snapshot is marked. The remover leaves this file alone; the adder
leaves the others alone and keeps the mark. -/
def protocol (own : ByteString) (prev : ℕ) :
    Protocol Half Unit (Action.Response (σ := σ) (ρ := ρ)) (Shared σ ρ) where
  inv s := (s.state.ownFile own).entry ≠ none → (s.state.ownFile own).Marked prev
  guar i _ _ s _ s' :=
    match i with
    | .remover => s'.state.ownFile own = s.state.ownFile own
    | .adder => s'.state.without own = s.state.without own ∧
        ((s.state.ownFile own).Marked prev → (s'.state.ownFile own).Marked prev)

/-- What a step returns and does, with the mutex left aside. -/
theorem effect_of_sem {i : Half} {m : Unit} {action : Action σ ρ} {s s' : Shared σ ρ}
    {r : action.Response} (h : sem out own i m action s r s') :
    effect out own i s.state action = (r, s'.state) := by
  obtain ⟨⟨d, hp⟩, -⟩ := h
  obtain ⟨mutex, -, hr⟩ := Option.map_eq_some_iff.mp hp
  obtain ⟨rfl, rfl⟩ := Prod.mk.inj hr
  rfl

/-- What the remover relies on. -/
theorem rely_remover {s s' : Shared σ ρ}
    (h : (protocol own prev).rely (sem out own) .remover s s') :
    s'.state.without own = s.state.without own ∧
      ((s.state.ownFile own).Marked prev → (s'.state.ownFile own).Marked prev) := by
  induction h with
  | refl => exact ⟨rfl, id⟩
  | tail _ hstep ih =>
    obtain ⟨j, hj, m, c, r, -, -, -, hguar⟩ := hstep
    obtain rfl : j = .adder := by
      revert hj
      cases j <;> simp
    exact ⟨hguar.1.trans ih.1, hguar.2 ∘ ih.2⟩

/-- What the adder relies on. -/
theorem rely_adder {s s' : Shared σ ρ}
    (h : (protocol own prev).rely (sem out own) .adder s s') :
    s'.state.ownFile own = s.state.ownFile own := by
  induction h with
  | refl => rfl
  | tail _ hstep ih =>
    obtain ⟨j, hj, m, c, r, -, -, -, hguar⟩ := hstep
    obtain rfl : j = .remover := by
      revert hj
      cases j <;> simp
    exact hguar.trans ih

/-! ## The remover -/

/-- The remover sees `v`, and knows the adder's file to be marked if `marked`. -/
def Sees (own : ByteString) (prev : ℕ) (marked : Prop) (v : State σ ρ) (s : Shared σ ρ) : Prop :=
  s.state.without own = v ∧ (marked → (s.state.ownFile own).Marked prev)

/-- Code of the remover that started in `v` leads to `Q`. -/
def Removes (out : Outside σ ρ) (own : ByteString) (prev : ℕ) (marked : Prop) {α : Type}
    (v : State σ ρ) (x : Code σ ρ α) (Q : α → State σ ρ → Prop) : Prop :=
  ∀ s, (protocol own prev).inv s → Sees own prev marked v s →
    Client.wp (sem out own) (protocol own prev) .remover x ()
      (fun a _ s' ↦ ∃ v', Q a v' ∧ Sees own prev marked v' s') s

namespace Removes

variable {marked : Prop} {α β : Type} {v : State σ ρ}

theorem mono {x : Code σ ρ α} {Q Q' : α → State σ ρ → Prop}
    (h : Removes out own prev marked v x Q) (hQ : ∀ a v', Q a v' → Q' a v') :
    Removes out own prev marked v x Q' := by
  intro s hs hv
  refine Client.wp_mono (h s hs hv) ?_
  rintro a - s' - ⟨v', hq, hv'⟩
  exact ⟨v', hQ a v' hq, hv'⟩

theorem pure {a : α} {Q : α → State σ ρ → Prop} (h : Q a v) :
    Removes out own prev marked v (Pure.pure a) Q := by
  intro s hs hv
  refine Client.wp_pure fun s' hrely _ ↦ ?_
  obtain ⟨hview, hmark⟩ := rely_remover hrely
  exact ⟨v, h, hview.trans hv.1, fun hm ↦ hmark (hv.2 hm)⟩

theorem bind {x : Code σ ρ α} {f : α → Code σ ρ β} {Q : α → State σ ρ → Prop}
    {Q' : β → State σ ρ → Prop} (h : Removes out own prev marked v x Q)
    (hf : ∀ a v', Q a v' → Removes out own prev marked v' (f a) Q') :
    Removes out own prev marked v (x >>= f) Q' := by
  intro s hs hv
  refine Client.wp_bind hs (Client.wp_mono (h s hs hv) ?_)
  rintro a ⟨⟩ s' hs' ⟨v', hq, hv'⟩
  exact hf a v' hq s' hs' hv'

/-- One step, by what it does to the other files and to the adder's file. -/
theorem step {action : Action σ ρ} {Q : action.Response → State σ ρ → Prop}
    (h : ∀ st : State σ ρ, st.without own = v → (marked → (st.ownFile own).Marked prev) →
      ((effect out own .remover st action).2.ownFile own = st.ownFile own) ∧
        Q (effect out own .remover st action).1
          ((effect out own .remover st action).2.without own)) :
    Removes out own prev marked v (Keys.step action) Q := by
  intro s hs hv
  refine Client.wp_perform fun s₁ hrely hs₁ r s₂ hsem ↦ ?_
  obtain ⟨hview, hmark⟩ := rely_remover hrely
  obtain ⟨hown, hQ⟩ := h s₁.state (hview.trans hv.1) fun hm ↦ hmark (hv.2 hm)
  rw [effect_of_sem hsem] at hown hQ
  dsimp only at hown hQ
  refine ⟨?_, hown, fun s₃ hrely' _ ↦ ?_⟩
  · change (s₂.state.ownFile own).entry ≠ none → (s₂.state.ownFile own).Marked prev
    rw [hown]
    exact hs₁
  · obtain ⟨hview', hmark'⟩ := rely_remover hrely'
    refine ⟨s₂.state.without own, hQ, hview', fun hm ↦ hmark' ?_⟩
    rw [hown]
    exact hmark (hv.2 hm)

end Removes

/-! ### Steps on other files -/

/-- A step of the remover on a file other than `own`. -/
def Elsewhere (own base : ByteString) : Action σ ρ → Prop
  | .findFiles _ _ => False
  | .newPath => True
  | .updateOf path | .readFile path | .writeFile path _ | .getSize path | .noteDeleted path _
  | .logDeleted path => ∃ q, q ≠ own ∧ path = base ++ q
  | .noteCreated stats | .logCreated stats => ∃ q, q ≠ own ∧ stats.path = base ++ q

section Elsewhere

variable {st : State σ ρ} {q path : ByteString}

theorem fullPath_ne (hq : q ≠ own) (hpath : path = st.table.deltaLog.basePath ++ q) :
    path ≠ st.table.fullPath own := by
  rintro rfl
  exact hq (List.append_cancel_left hpath).symm

theorem relative_ne (hq : q ≠ own) (hpath : path = st.table.deltaLog.basePath ++ q) :
    st.table.deltaLog.relative path ≠ own := by
  rw [hpath, DeltaLogManager.relative_append]
  exact hq

theorem ownFile_noteCreated {stats : FileStats} (h : stats.path ≠ st.table.fullPath own) :
    State.ownFile own { st with table := st.table.noteCreated stats } = st.ownFile own := by
  have hcreated := AssocList.lookup_insertOrAssign st.table.createdFiles stats.path
    (st.table.fullPath own) stats
  have hdeleted := AssocList.lookup_modify st.table.deletedFiles stats.path
    (st.table.fullPath own) ({ · with valid := false })
  rw [if_neg h.symm] at hcreated hdeleted
  simp only [State.ownFile, TableStats.noteCreated, TableStats.fullPath] at hcreated hdeleted ⊢
  rw [hcreated, hdeleted]

theorem ownFile_noteDeleted {size : ℤ} (h : path ≠ st.table.fullPath own) :
    State.ownFile own { st with table := st.table.noteDeleted path size } = st.ownFile own := by
  have hdeleted := AssocList.lookup_insertOrAssign st.table.deletedFiles path
    (st.table.fullPath own) { path := path, size := size }
  have hcreated := AssocList.lookup_modify st.table.createdFiles path
    (st.table.fullPath own) ({ · with valid := false })
  rw [if_neg h.symm] at hcreated hdeleted
  simp only [State.ownFile, TableStats.noteDeleted, TableStats.fullPath] at hcreated hdeleted ⊢
  rw [hcreated, hdeleted]

theorem ownFile_registerOperation {op : DLOperation} {entry : DeltaLogEntry} {overwrite : Bool}
    (h : st.table.deltaLog.relative path ≠ own) :
    State.ownFile own { st with table := { st.table with
        deltaLog := st.table.deltaLog.registerOperation op path entry overwrite } } =
      st.ownFile own := by
  have hentry : (st.table.deltaLog.registerOperation op path entry overwrite).files.lookup own =
      st.table.deltaLog.files.lookup own := DeltaLogManager.lookup_registerOperation_of_ne h.symm
  simp only [State.ownFile, TableStats.fullPath, DeltaLogManager.registerOperation_basePath, hentry]

theorem ownFile_write {data : DataTable σ ρ} (h : path ≠ st.table.fullPath own) :
    State.ownFile own { st with stored := Function.update st.stored path (some data) } =
      st.ownFile own := by
  simp only [State.ownFile, Function.update_of_ne h.symm]

theorem without_write {data : DataTable σ ρ} (h : path ≠ st.table.fullPath own) :
    State.without own { st with stored := Function.update st.stored path (some data) } =
      { st.without own with
        stored := Function.update (st.without own).stored path (some data) } := by
  simp only [State.without, Function.update_comm h]

/-- Such a step leaves the adder's file alone, and acts on the others as if that were not there. -/
theorem effect_elsewhere {action : Action σ ρ}
    (h : Elsewhere own st.table.deltaLog.basePath action) :
    (effect out own .remover st action).2.ownFile own = st.ownFile own ∧
      effect out own .remover (st.without own) action =
        ((effect out own .remover st action).1,
          (effect out own .remover st action).2.without own) := by
  cases action with
  | findFiles c key => exact h.elim
  | newPath => exact ⟨rfl, rfl⟩
  | updateOf path =>
    obtain ⟨q, hq, hpath⟩ := h
    have hlookup := AssocList.lookup_erase_of_ne (l := st.table.createdFiles)
      (fullPath_ne hq hpath)
    exact ⟨rfl, congrArg (fun o ↦ (o.map (·.updateId), st.without own)) hlookup⟩
  | readFile path =>
    obtain ⟨q, hq, hpath⟩ := h
    exact ⟨rfl, congrArg (·, st.without own)
      (State.without_readDataFile out (fullPath_ne hq hpath))⟩
  | writeFile path data =>
    obtain ⟨q, hq, hpath⟩ := h
    have hne := fullPath_ne hq hpath
    have heffect : ∀ st : State σ ρ, effect out own .remover st (.writeFile path data) =
        if out.canWrite path then
          (true, { st with stored := Function.update st.stored path (some data) })
        else (false, st) := fun _ ↦ rfl
    rw [heffect, heffect]
    split
    · exact ⟨ownFile_write hne, congrArg (true, ·) (without_write hne).symm⟩
    · exact ⟨rfl, rfl⟩
  | getSize path =>
    obtain ⟨q, hq, hpath⟩ := h
    exact ⟨rfl, congrArg (·, st.without own) (without_getSize (relative_ne hq hpath))⟩
  | noteDeleted path size =>
    obtain ⟨q, hq, hpath⟩ := h
    have hne := fullPath_ne hq hpath
    have hwithout : State.without own { st with table := st.table.noteDeleted path size } =
        { st.without own with table := (st.table.without own).noteDeleted path size } :=
      State.without_withTable st (TableStats.without_noteDeleted_of_ne hne) rfl
    exact ⟨ownFile_noteDeleted hne, congrArg ((), ·) hwithout.symm⟩
  | logDeleted path =>
    obtain ⟨q, hq, hpath⟩ := h
    have hne := relative_ne hq hpath
    have hwithout := State.without_withTable st (TableStats.without_logDeleted_of_ne hne) rfl
    exact ⟨ownFile_registerOperation hne, congrArg ((), ·) hwithout.symm⟩
  | noteCreated stats =>
    obtain ⟨q, hq, hpath⟩ := h
    have hne := fullPath_ne hq hpath
    have hwithout := State.without_withTable st (TableStats.without_noteCreated_of_ne hne) rfl
    exact ⟨ownFile_noteCreated hne, congrArg ((), ·) hwithout.symm⟩
  | logCreated stats =>
    obtain ⟨q, hq, hpath⟩ := h
    have hne := relative_ne hq hpath
    have hwithout : State.without own { st with table := st.table.logCreated stats false } =
        { st.without own with table := (st.table.without own).logCreated stats false } :=
      State.without_withTable st (TableStats.without_logCreated_of_ne hne) rfl
    exact ⟨ownFile_registerOperation hne, congrArg ((), ·) hwithout.symm⟩

end Elsewhere

namespace Removes

variable {marked : Prop} {α β : Type} {v : State σ ρ}

theorem elsewhere {action : Action σ ρ} (h : Elsewhere own v.table.deltaLog.basePath action) :
    Removes out own prev marked v (Keys.step action) fun r v' ↦
      effect out own .remover v action = (r, v') := by
  refine step ?_
  rintro st rfl -
  exact effect_elsewhere h

/-- The remover registers a new file. -/
theorem registerCreated {stats : FileStats} {q : ByteString} (hq : q ≠ own)
    (hpath : stats.path = v.table.deltaLog.basePath ++ q) :
    Removes out own prev marked v (Keys.registerCreated stats) fun _ v' ↦
      v' = { v with table := v.table.registerCreatedFile stats false } := by
  refine bind (elsewhere ⟨q, hq, hpath⟩) ?_
  intro r v₁ h₁
  obtain ⟨-, rfl⟩ := Prod.mk.inj h₁
  refine mono (elsewhere ⟨q, hq, hpath⟩) ?_
  intro r v₂ h₂
  exact (Prod.mk.inj h₂).2.symm

/-- The remover registers that a file is removed. -/
theorem registerDeleted {path q : ByteString} (hq : q ≠ own)
    (hpath : path = v.table.deltaLog.basePath ++ q) :
    Removes out own prev marked v (Keys.registerDeleted path) fun _ v' ↦
      v' = { v with table := v.table.registerDeletedFile path } := by
  refine bind (elsewhere ⟨q, hq, hpath⟩) ?_
  intro size v₁ h₁
  obtain ⟨rfl, rfl⟩ := Prod.mk.inj h₁
  refine bind (elsewhere ⟨q, hq, hpath⟩) ?_
  intro r v₂ h₂
  obtain ⟨-, rfl⟩ := Prod.mk.inj h₂
  refine mono (elsewhere ⟨q, hq, hpath⟩) ?_
  intro r v₃ h₃
  exact (Prod.mk.inj h₃).2.symm

/-- The remover removes the rows of the key from one file. -/
theorem removeRows {f : KeyFile σ ρ} {q : ByteString} (hq : q ≠ own)
    (hpath : f.path = v.table.deltaLog.basePath ++ q) (hnew : out.newName v.asked ≠ own) :
    Removes out own prev marked v (Keys.removeRows out f) fun removed v' ↦
      removeKeyRows out v f = (removed, v') := by
  unfold Keys.removeRows removeKeyRows
  split
  · refine bind (registerDeleted hq hpath) ?_
    rintro - v' rfl
    exact pure rfl
  · cases hrest : f.rest out with
    | none => exact pure rfl
    | some rest =>
      refine bind (elsewhere trivial) ?_
      intro path v₁ h₁
      obtain ⟨rfl, rfl⟩ := Prod.mk.inj h₁
      refine bind (elsewhere ⟨_, hnew, rfl⟩) ?_
      intro written v₂ h₂
      change (if out.canWrite (v.newDataFilePath out v.asked) = true then _ else _) = _ at h₂
      cases hwrite : out.canWrite (v.newDataFilePath out v.asked) with
      | true =>
        rw [if_pos hwrite] at h₂
        obtain ⟨rfl, rfl⟩ := Prod.mk.inj h₂
        refine bind (registerCreated hnew rfl) ?_
        rintro - v₃ rfl
        refine bind (registerDeleted hq hpath) ?_
        rintro - v₄ rfl
        exact pure rfl
      | false =>
        rw [if_neg (by simp [hwrite])] at h₂
        obtain ⟨rfl, rfl⟩ := Prod.mk.inj h₂
        exact pure rfl

/-- The remover removes the rows of the key from all found files. -/
theorem removeAll {files : List (KeyFile σ ρ)}
    (hfiles : ∀ f ∈ files, ∃ q, q ≠ own ∧ f.path = v.table.deltaLog.basePath ++ q)
    (hnew : ∀ n, v.asked ≤ n → out.newName n ≠ own) :
    Removes out own prev marked v (Keys.removeAll out files) fun removed v' ↦
      removeLoop out files v = (removed, v') := by
  induction files generalizing v with
  | nil => exact pure rfl
  | cons f files ih =>
    obtain ⟨q, hq, hpath⟩ := hfiles f List.mem_cons_self
    refine bind (removeRows hq hpath (hnew v.asked le_rfl)) ?_
    intro removed v₁ h₁
    rw [removeLoop, h₁]
    cases removed with
    | false => exact pure rfl
    | true =>
      obtain ⟨hasked, hbase⟩ := removeKeyRows_true h₁
      apply ih
      · intro g hg
        rw [hbase]
        exact hfiles g (List.mem_cons_of_mem _ hg)
      · intro n hn
        exact hnew n (by omega)

theorem skipped_iff {created : List (ByteString × FileStats)} {path : ByteString} :
    skipped created (some prev) path = true ↔
      (created.lookup path).map (·.updateId) = some (some prev) := by
  simp [skipped, Option.any_eq_true]

/-- The remover finds the files of the key, except for the adder's. -/
theorem search {m : KeyMatcher σ} {candidates : List (ByteString × KeyMatch)}
    (hcandidates : ∀ candidate ∈ candidates, (candidate.1 = v.table.fullPath own ∧ marked) ∨
      ∃ q, q ≠ own ∧ candidate.1 = v.table.deltaLog.basePath ++ q) :
    Removes out own prev marked v (Keys.search out.arrow m prev candidates) fun files v' ↦
      v' = v ∧ keyFilesLoop out.arrow m (v.readDataFile out) v.table.createdFiles false (some prev)
        (candidates.filter fun candidate ↦ candidate.1 ≠ v.table.fullPath own) = files := by
  induction candidates with
  | nil => exact pure ⟨rfl, rfl⟩
  | cons candidate candidates ih =>
    obtain ⟨path, found⟩ := candidate
    have ih := ih fun candidate h ↦ hcandidates candidate (List.mem_cons_of_mem _ h)
    have hupdate : Removes out own prev marked v (Keys.step (.updateOf path)) fun update v' ↦
        v' = v ∧ (path = v.table.fullPath own → update = some (some prev)) ∧
          (path ≠ v.table.fullPath own →
            (v.table.createdFiles.lookup path).map (·.updateId) = update) := by
      rcases hcandidates (path, found) List.mem_cons_self with ⟨hpath, hmarked⟩ | ⟨q, hq, hpath⟩
      · refine step ?_
        rintro st rfl hmark
        refine ⟨rfl, rfl, fun h ↦ ?_, fun h ↦ absurd hpath h⟩
        subst h
        exact hmark hmarked
      · refine mono (elsewhere ⟨q, hq, hpath⟩) ?_
        intro update v' h
        obtain ⟨rfl, rfl⟩ := Prod.mk.inj h
        exact ⟨rfl, fun h ↦ absurd h (fullPath_ne hq hpath), fun _ ↦ rfl⟩
    refine bind hupdate ?_
    rintro update v₁ ⟨rfl, hself, hother⟩
    by_cases hown : path = v₁.table.fullPath own
    · rw [List.filter_cons_of_neg (by simpa using hown), hself hown, if_pos rfl]
      exact ih
    · obtain ⟨q, hq, hpath⟩ := (hcandidates (path, found) List.mem_cons_self).resolve_left fun h ↦
        hown h.1
      rw [List.filter_cons_of_pos (by simpa using hown), keyFilesLoop, ← hother hown]
      dsimp only
      by_cases hskip : skipped v₁.table.createdFiles (some prev) path = true
      · rw [if_pos (skipped_iff.mp hskip), if_pos hskip]
        exact ih
      · rw [if_neg fun h ↦ hskip (skipped_iff.mpr h), if_neg hskip]
        by_cases hexact : found = .exact
        · rw [if_pos hexact, if_pos (by simp [hexact])]
          refine bind ih ?_
          rintro files v₂ ⟨rfl, rfl⟩
          exact pure ⟨rfl, by rw [decide_eq_true hexact]⟩
        · rw [if_neg hexact, if_neg (by simp [hexact])]
          refine bind (elsewhere ⟨q, hq, hpath⟩) ?_
          intro data v₂ h₂
          obtain ⟨rfl, rfl⟩ := Prod.mk.inj h₂
          cases v₁.readDataFile out path with
          | none => exact pure ⟨rfl, rfl⟩
          | some data =>
            dsimp only
            split
            · exact ih
            · refine bind ih ?_
              rintro files v₃ ⟨rfl, rfl⟩
              exact pure ⟨rfl, by rw [decide_eq_false hexact]⟩

/-- The remover asks for the files of the key. -/
theorem findFiles {c : KeyColumn} {key : ByteString} {s : Shared σ ρ}
    (hs : (protocol own prev).inv s) (hv : Sees own prev False v s) :
    Client.wp (sem out own) (protocol own prev) .remover (Keys.step (.findFiles c key)) ()
      (fun (candidates : List (ByteString × KeyMatch)) _ s' ↦
        (candidates.filter fun candidate ↦ candidate.1 ≠ v.table.fullPath own) =
            v.table.candidates out.arrow c key ∧
          (∀ candidate ∈ candidates, ∃ q, candidate.1 = v.table.deltaLog.basePath ++ q) ∧
          Sees own prev (v.table.fullPath own ∈ candidates.map (·.1)) v s') s := by
  obtain ⟨rfl, -⟩ := hv
  refine Client.wp_perform fun s₁ hrely hs₁ r s₂ hsem ↦ ?_
  have heffect := effect_of_sem hsem
  obtain ⟨rfl, hstate⟩ := Prod.mk.inj heffect
  have hview := (rely_remover hrely).1
  refine ⟨?_, congrArg (State.ownFile own) hstate.symm, fun s₃ hrely' _ ↦ ?_⟩
  · change (s₂.state.ownFile own).entry ≠ none → (s₂.state.ownFile own).Marked prev
    rw [← hstate]
    exact hs₁
  · obtain ⟨hview', hmark⟩ := rely_remover hrely'
    rw [← hstate] at hview' hmark
    have hpath : (s.state.without own).table.fullPath own = s₁.state.table.fullPath own := by
      rw [← hview]
      rfl
    have hbase : (s.state.without own).table.deltaLog.basePath =
        s₁.state.table.deltaLog.basePath := by
      rw [← hview]
      rfl
    rw [hpath, hbase]
    refine ⟨?_, ?_, hview'.trans hview, fun hmem ↦ hmark (hs₁ ?_)⟩
    · rw [← hview]
      exact candidates_without.symm
    · intro candidate hmem
      obtain ⟨q, e, -, hq⟩ := mem_candidates hmem
      exact ⟨q, hq⟩
    · obtain ⟨candidate, hmem, hown⟩ := List.mem_map.mp hmem
      obtain ⟨q, e, hlive, hq⟩ := mem_candidates hmem
      obtain rfl : q = own := List.append_cancel_left (hq.symm.trans hown)
      change s₁.state.table.deltaLog.files.lookup q ≠ none
      rw [(DeltaLogManager.live_iff_lookup.mp hlive).1]
      exact Option.some_ne_none e

/-- What the remover does with the files that hold the key. -/
def removeFound (out : Outside σ ρ) : Option (List (KeyFile σ ρ)) → Code σ ρ Bool
  | none | some [] => Pure.pure false
  | some (f :: files) => Keys.removeAll out (f :: files)

/-- **The remover.** What it does to the other files is what `remove_file` does without the
adder. -/
theorem removeHalf {c : KeyColumn} {key : ByteString} (hcol : v.table.firstColumn = some c)
    (hnew : ∀ n, v.asked ≤ n → out.newName n ≠ own) :
    Removes out own prev False v (Keys.removeHalf out c key prev) fun removed v' ↦
      (removeFile out true v key (some prev)).ok = removed ∧
        (removeFile out true v key (some prev)).state = v' := by
  intro s hs hv
  refine Client.wp_bind hs (Client.wp_mono (findFiles hs hv) ?_)
  rintro (candidates : List (ByteString × KeyMatch)) ⟨⟩ s₁ hs₁ ⟨hcandidates, hpaths, hv₁⟩
  have hown : ∀ candidate ∈ candidates,
      (candidate.1 = v.table.fullPath own ∧ v.table.fullPath own ∈ candidates.map (·.1)) ∨
        ∃ q, q ≠ own ∧ candidate.1 = v.table.deltaLog.basePath ++ q := by
    intro candidate hmem
    obtain ⟨q, hq⟩ := hpaths candidate hmem
    by_cases hself : q = own
    · subst hself
      exact .inl ⟨hq, List.mem_map.mpr ⟨candidate, hmem, hq⟩⟩
    · exact .inr ⟨q, hself, hq⟩
  have hrun : Removes out own prev (v.table.fullPath own ∈ candidates.map (·.1)) v
      (Keys.search out.arrow (KeyMatcher.make out.arrow c.type key) prev candidates >>=
        removeFound out) fun removed v' ↦
      (removeFile out true v key (some prev)).ok = removed ∧
        (removeFile out true v key (some prev)).state = v' := by
    refine bind (search hown) ?_
    rintro files v₁ ⟨rfl, hfiles⟩
    rw [hcandidates, ← findKeyFiles_of_firstColumn hcol] at hfiles
    unfold removeFile
    rw [hfiles]
    rcases files with _ | _ | ⟨f, files⟩
    · exact pure ⟨rfl, rfl⟩
    · exact pure ⟨rfl, rfl⟩
    · have hother : ∀ g ∈ f :: files, ∃ q, q ≠ own ∧ g.path = v₁.table.deltaLog.basePath ++ q := by
        intro g hg
        obtain ⟨q, e, hlive, hq⟩ := findKeyFiles_live hfiles hg
        rw [← hv.1] at hlive
        exact ⟨q, (live_without.mp hlive).2, hq⟩
      refine mono (removeAll hother hnew) ?_
      intro removed v₂ h
      exact Prod.ext_iff.mp h
  refine Client.wp_mono (hrun s₁ hs₁ hv₁) ?_
  rintro removed - s₂ - ⟨v', hq, hv'⟩
  exact ⟨v', hq, hv'.1, False.elim⟩

end Removes

/-! ## The adder -/

section OwnFile

variable {st : State σ ρ} {stats : FileStats}

theorem ownFile_noteCreated_self (hpath : stats.path = st.table.fullPath own)
    (hdeleted : (st.ownFile own).deleted = none) :
    State.ownFile own { st with table := st.table.noteCreated stats } =
      { st.ownFile own with created := some stats } := by
  change st.table.deletedFiles.lookup (st.table.fullPath own) = none at hdeleted
  have hcreated' : (st.table.noteCreated stats).createdFiles.lookup (st.table.fullPath own) =
      some stats := by
    rw [TableStats.noteCreated, AssocList.lookup_insertOrAssign, if_pos hpath.symm]
  have hdeleted' : (st.table.noteCreated stats).deletedFiles.lookup (st.table.fullPath own) =
      none := by
    rw [TableStats.noteCreated, AssocList.lookup_modify, if_pos hpath.symm, hpath, hdeleted]
    rfl
  change OwnFile.mk _ _ ((st.table.noteCreated stats).createdFiles.lookup (st.table.fullPath own))
    ((st.table.noteCreated stats).deletedFiles.lookup (st.table.fullPath own)) _ = _
  rw [hcreated', hdeleted', ← hdeleted]
  rfl

theorem ownFile_logCreated_self (hpath : stats.path = st.table.fullPath own)
    (hentry : (st.ownFile own).entry = none) :
    State.ownFile own { st with table := st.table.logCreated stats false } =
      { st.ownFile own with entry := some (TableStats.createdEntry stats) } := by
  change st.table.deltaLog.files.lookup own = none at hentry
  have hrel : st.table.deltaLog.relative stats.path = own := by
    rw [hpath]
    exact DeltaLogManager.relative_append _ own
  have hentry' : (st.table.logCreated stats false).deltaLog.files.lookup own =
      some (TableStats.createdEntry stats) := by
    simp only [TableStats.logCreated, DeltaLogManager.registerOperation, hrel, hentry,
      AssocList.lookup_insertOrAssign, if_true]
  change OwnFile.mk _ ((st.table.logCreated stats false).deltaLog.files.lookup own) _ _ _ = _
  rw [hentry']
  rfl

end OwnFile

/-- Code of the adder that found its file as `f` leads to `Q`. -/
def Adds (out : Outside σ ρ) (own : ByteString) (prev : ℕ) {α : Type} (f : OwnFile σ ρ)
    (x : Code σ ρ α) (Q : α → OwnFile σ ρ → Prop) : Prop :=
  ∀ s, (protocol own prev).inv s → s.state.ownFile own = f →
    Client.wp (sem out own) (protocol own prev) .adder x ()
      (fun a _ s' ↦ Q a (s'.state.ownFile own)) s

namespace Adds

variable {α β : Type} {f : OwnFile σ ρ}

theorem pure {a : α} {Q : α → OwnFile σ ρ → Prop} (h : Q a f) :
    Adds out own prev f (Pure.pure a) Q := by
  rintro s hs rfl
  refine Client.wp_pure fun s' hrely _ ↦ ?_
  rw [rely_adder hrely]
  exact h

theorem bind {x : Code σ ρ α} {g : α → Code σ ρ β} {Q : α → OwnFile σ ρ → Prop}
    {Q' : β → OwnFile σ ρ → Prop} (h : Adds out own prev f x Q)
    (hg : ∀ a f', Q a f' → Adds out own prev f' (g a) Q') :
    Adds out own prev f (x >>= g) Q' := by
  intro s hs hf
  refine Client.wp_bind hs (Client.wp_mono (h s hs hf) ?_)
  rintro a ⟨⟩ s' hs' hq
  exact hg a _ hq s' hs' rfl

/-- One step, by what it does to the adder's file. -/
theorem step {action : Action σ ρ} {Q : action.Response → OwnFile σ ρ → Prop}
    (hothers : ∀ st : State σ ρ, st.ownFile own = f →
      (effect out own .adder st action).2.without own = st.without own)
    (hown : ∀ st : State σ ρ, st.ownFile own = f →
      Q (effect out own .adder st action).1 ((effect out own .adder st action).2.ownFile own))
    (hmark : ∀ r f', Q r f' → (f.Marked prev → f'.Marked prev) ∧
      ((f.entry ≠ none → f.Marked prev) → f'.entry ≠ none → f'.Marked prev)) :
    Adds out own prev f (Keys.step action) Q := by
  intro s hs hf
  refine Client.wp_perform fun s₁ hrely hs₁ r s₂ hsem ↦ ?_
  have hf₁ : s₁.state.ownFile own = f := (rely_adder hrely).trans hf
  have hothers := hothers s₁.state hf₁
  have hown := hown s₁.state hf₁
  rw [effect_of_sem hsem] at hothers hown
  obtain ⟨hkeep, hinv⟩ := hmark r _ hown
  change (s₁.state.ownFile own).entry ≠ none → (s₁.state.ownFile own).Marked prev at hs₁
  refine ⟨?_, ⟨hothers, ?_⟩, fun s₃ hrely' _ ↦ ?_⟩
  · rw [hf₁] at hs₁
    exact hinv hs₁
  · rw [hf₁]
    exact hkeep
  · rw [rely_adder hrely']
    exact hown

/-- The file is written. -/
theorem writeFile {data : DataTable σ ρ} :
    Adds out own prev f (Keys.step (.writeFile f.path data)) fun (written : Bool) f' ↦
      f' = if written then { f with stored := some data } else f := by
  have heffect : ∀ st : State σ ρ, effect out own .adder st (.writeFile f.path data) =
      if out.canWrite f.path then
        (true, { st with stored := Function.update st.stored f.path (some data) })
      else (false, st) := fun _ ↦ rfl
  refine step ?_ ?_ ?_
  · rintro st rfl
    rw [heffect]
    split
    · simp only [State.without, State.ownFile, Function.update_idem]
    · rfl
  · rintro st rfl
    rw [heffect]
    split
    · simp only [State.ownFile, Function.update_self, if_pos]
    · rfl
  · rintro written f' rfl
    split
    · exact ⟨id, id⟩
    · exact ⟨id, id⟩

/-- The file is registered, first for the update. -/
theorem registerCreated {stats : FileStats} (hpath : stats.path = f.path)
    (hupdate : stats.updateId = some prev) (hentry : f.entry = none) (hdeleted : f.deleted = none) :
    Adds out own prev f (Keys.registerCreated stats) fun _ f' ↦
      f' = { f with entry := some (TableStats.createdEntry stats), created := some stats } := by
  have hmarked : (some stats).map (·.updateId) = some (some prev) := congrArg some hupdate
  have hnote : Adds out own prev f (Keys.step (.noteCreated stats)) fun _ f' ↦
      f' = { f with created := some stats } := by
    refine step ?_ ?_ ?_
    · rintro st rfl
      exact State.without_withTable st (TableStats.without_noteCreated_self hpath) rfl
    · rintro st rfl
      exact ownFile_noteCreated_self hpath hdeleted
    · rintro - f' rfl
      exact ⟨fun _ ↦ hmarked, fun _ _ ↦ hmarked⟩
  have hlog : Adds out own prev { f with created := some stats } (Keys.step (.logCreated stats))
      fun _ f' ↦
        f' = { f with entry := some (TableStats.createdEntry stats), created := some stats } := by
    refine step ?_ ?_ ?_
    · rintro st hf
      have hpath' : stats.path = st.table.fullPath own := hpath.trans (congrArg OwnFile.path hf).symm
      exact State.without_withTable st (TableStats.without_logCreated_self hpath') rfl
    · intro st hf
      have hpath' : stats.path = st.table.fullPath own := hpath.trans (congrArg OwnFile.path hf).symm
      have hentry' : (st.ownFile own).entry = none := (congrArg OwnFile.entry hf).trans hentry
      exact (ownFile_logCreated_self hpath' hentry').trans (by rw [hf])
    · rintro - f' rfl
      exact ⟨id, fun _ _ ↦ hmarked⟩
  refine bind hnote ?_
  rintro - f₁ rfl
  exact hlog

/-- **The adder.** If it succeeds, its file holds the new rows and is registered for the update. -/
theorem addHalf {rows : DataTable σ ρ} (hentry : f.entry = none) (hdeleted : f.deleted = none) :
    Adds out own prev f (Keys.addHalf out rows prev) fun added f' ↦ added = true →
      ∃ data stats, out.conform rows = some data ∧ stats.valid = true ∧
        f' = { f with
          entry := some (TableStats.createdEntry stats), created := some stats,
          stored := some data } := by
  unfold Keys.addHalf
  cases hconform : out.conform rows with
  | none => exact pure fun h ↦ nomatch h
  | some data =>
    have hpath : Adds out own prev f (Keys.step .newPath) fun path f' ↦ path = f.path ∧ f' = f := by
      refine step ?_ ?_ ?_
      · rintro st rfl
        rfl
      · rintro st rfl
        exact ⟨rfl, rfl⟩
      · rintro - f' ⟨-, rfl⟩
        exact ⟨id, id⟩
    refine bind hpath ?_
    rintro path f₁ ⟨rfl, rfl⟩
    refine bind writeFile ?_
    rintro written f₂ rfl
    cases written with
    | false => exact pure fun h ↦ nomatch h
    | true =>
      refine bind (registerCreated rfl rfl hentry hdeleted) ?_
      rintro - f₃ rfl
      exact pure fun _ ↦ ⟨data, _, rfl, rfl, rfl⟩
end Adds

end LakeVilla.Keys
