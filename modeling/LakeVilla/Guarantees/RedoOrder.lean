import LakeVilla.Keys.RedoRun

/-!
# The redo of an update and the order of its halves

With implicit logging the halves of an update of a key only log steps: a search and a removal, and
the update itself. They may run at the same time, and the redo executes the steps in the order of
their numbers, after the search of the read that came before. The update replaces the rows of the
key on its own; a search that comes after it finds the updated rows, and the removal then takes them
away.
-/

namespace LakeVilla.Keys

open ByteString
open Sublog (UpdateOperation UpdateValues RedoStep)

variable {σ : Type}

/-- Both lists in one order, each in its own. -/
inductive Interleaving {α : Type} : List α → List α → List α → Prop
  | nil : Interleaving [] [] []
  | left {a : α} {l l' steps : List α} : Interleaving l l' steps →
    Interleaving (a :: l) l' (a :: steps)
  | right {a : α} {l l' steps : List α} : Interleaving l l' steps →
    Interleaving l (a :: l') (a :: steps)

/-- One step among two. -/
theorem Interleaving.cases_two {α : Type} {a b x : α} {steps : List α}
    (h : Interleaving [a, b] [x] steps) :
    steps = [a, b, x] ∨ steps = [a, x, b] ∨ steps = [x, a, b] := by
  have hright : ∀ {l steps : List α}, Interleaving [] l steps → steps = l := by
    intro l
    induction l with
    | nil =>
      rintro _ ⟨⟩
      rfl
    | cons y l ih =>
      rintro _ (_ | _ | h)
      rw [ih h]
  have hleft : ∀ {l steps : List α}, Interleaving l [] steps → steps = l := by
    intro l
    induction l with
    | nil =>
      rintro _ ⟨⟩
      rfl
    | cons y l ih =>
      rintro _ (_ | h)
      rw [ih h]
  cases h with
  | left h =>
    cases h with
    | left h => exact .inl (by rw [hright h])
    | right h => exact .inr (.inl (by rw [hleft h]))
  | right h => exact .inr (.inr (by rw [hleft h]))

/-- The rows of the key in a snapshot. -/
def State.keyRows {ρ : Type} (arrow : Arrow σ) (c : KeyColumn) (key : ByteString)
    (st : State σ ρ) : List (Row σ ρ) :=
  (st.table.deltaLog.liveRows st.content).filter (·.HasKey arrow c key)

/-- The operation applied to the rows of the key. -/
def RedoContext.updated (ctx : RedoContext σ) (c : KeyColumn) (key : ByteString) (index : ℕ)
    (st : State σ (List (Cell σ))) : Option (List (FullRow σ)) := do
  let values ← ctx.updateVals[index]?
  let op ← ctx.updateOps[index]?
  applyUpdate ctx.float st.table.columns op values (st.keyRows ctx.out.arrow c key)

/-- The redo has succeeded: the snapshot and the commit hold the updated rows and those of the other
keys. -/
def Redone (ctx : RedoContext σ) (c : KeyColumn) (key : ByteString) (index : ℕ)
    (version : Finset ByteString) (st : State σ (List (Cell σ))) (after : Option (Redo σ)) : Prop :=
  ∃ rows r, ctx.updated c key index st = some rows ∧ after = some r ∧
    r.state.liveRows = (st.liveRows.filter fun r ↦ ¬r.HasKey ctx.out.arrow c key) + ↑rows ∧
    rowsIn r.state.content (r.state.table.committedFiles version) =
      (st.liveRows.filter fun r ↦ ¬r.HasKey ctx.out.arrow c key) + ↑rows

/-- A search of the key finds some rows in the file to which they were written. -/
def RedoContext.FindsAgain (ctx : RedoContext σ) (c : KeyColumn) (key : ByteString)
    (rows : List (FullRow σ)) : Prop :=
  ∃ written, ctx.out.conform ⟨[rows]⟩ = some written ∧
    classifyEntry ctx.out.arrow c key
      (TableStats.createdEntry { path := [], stats := ctx.out.statistics written }) ≠ .none ∧
    ∃ r ∈ rows, r.matches ctx.out.arrow (KeyMatcher.make ctx.out.arrow c.type key) = true

/-! ## Steps -/

section Steps

variable {ctx : RedoContext σ} {c : KeyColumn} {key : ByteString} {index : ℕ}
  {st st₁ st₂ : State σ (List (Cell σ))} {r : Redo σ} {files : List (KeyFile σ (List (Cell σ)))}
  {version : Finset ByteString}

/-- The files that a search of the key finds. -/
structure Searched (ctx : RedoContext σ) (c : KeyColumn) (key : ByteString)
    (st : State σ (List (Cell σ))) (files : List (KeyFile σ (List (Cell σ)))) : Prop where
  found : FoundFiles st files
  eq : files = st.table.deltaLog.files.filterMap fun e ↦
    keyFileAt ctx.out.arrow c key true st.table.createdFiles none
      (st.table.deltaLog.basePath ++ e.1) (st.content (st.table.deltaLog.basePath ++ e.1)) e.2

theorem execute_search (key : ByteString) (hworks : ctx.out.Works)
    (hsound : r.state.Sound ctx.out) (hcol : r.state.table.firstColumn = some c) :
    ∃ r', r.execute ctx (.search key) = some r' ∧ r'.state = r.state ∧ r'.retiredFiles = [] ∧
      Searched ctx c key r.state r'.foundFiles := by
  obtain ⟨files, hfind, heq, hfound⟩ := search_works key hworks hsound hcol
  refine ⟨_, congrArg (Option.map _) hfind, rfl, rfl, ?_⟩
  exact ⟨hfound, heq⟩

/-- Found files that are not retired are removed and retired. -/
theorem removeFound_works (ctx : RedoContext σ) (hworks : ctx.out.Works)
    (hsound : r.state.Sound ctx.out)
    (hfound : FoundFiles r.state r.foundFiles) (hretired : r.retiredFiles = []) :
    ∃ r', r.removeFound ctx = some r' ∧ r'.foundFiles = r.foundFiles ∧
      removeLoop ctx.out r.foundFiles r.state = (true, r'.state) ∧
      (∀ f ∈ r'.foundFiles, f.path ∈ r'.retiredFiles) ∧
      r.state.Keeps ctx.out (r.foundFiles.map (·.path)) r'.state := by
  have hnone : ∀ f ∈ r.foundFiles, f.path ∉ r.retiredFiles := fun f _ ↦
    hretired ▸ List.not_mem_nil
  obtain ⟨retired, st', hrun, hloop, hmem, -, hkeeps⟩ :=
    removeFoundRows_works hworks hsound hfound hnone
  refine ⟨{ r with retiredFiles := retired, state := st' }, ?_, rfl, hloop, hmem, hkeeps⟩
  rw [Redo.removeFound, hrun]
  rfl

/-- Retired files are not removed again. -/
theorem removeFound_retired (h : ∀ f ∈ r.foundFiles, f.path ∈ r.retiredFiles) :
    r.removeFound ctx = some r := by
  rw [Redo.removeFound, removeFoundRows_retired h]
  rfl

/-- The rows of the key go, whatever was added since the search. -/
theorem removeLoop_searched (hworks : ctx.out.Works)
    (hvalid : st.table.Valid ctx.out.arrow c st.content) (hsearched : Searched ctx c key st files)
    (hkeeps : st.Keeps ctx.out [] st₁)
    (hloop : removeLoop ctx.out files st₁ = (true, st₂)) :
    st₂.liveRows + st.liveRows =
      st₁.liveRows + st.liveRows.filter fun r ↦ ¬r.HasKey ctx.out.arrow c key := by
  have hfound := hsearched.found.keeps hkeeps fun _ _ ↦ List.not_mem_nil
  have hrows := removeLoop_rows hworks.keepsRows hkeeps.sound.fresh hfound.live hfound.nodup hloop
  have hcontent : ∀ f ∈ files, st₁.content f.path = st.content f.path := by
    intro f hf
    obtain ⟨p, e, hp, hpath⟩ := hsearched.found.live f hf
    rw [hpath]
    exact (hkeeps.live p e List.not_mem_nil hp).2
  have hbalance := search_balance hvalid hsearched.eq
  rw [List.map_congr_left fun f hf ↦ by rw [hcontent f hf]] at hrows
  apply add_right_cancel (b := (files.map fun f ↦
    (↑(st.content f.path).rows : Multiset (FullRow σ))).sum)
  calc st₂.liveRows + st.liveRows +
          (files.map fun f ↦ (↑(st.content f.path).rows : Multiset (FullRow σ))).sum
      = st₁.liveRows + (files.map fun f ↦ (↑f.keptRows : Multiset (FullRow σ))).sum +
          st.liveRows := by rw [add_right_comm, hrows]
    _ = st₁.liveRows + ((st.liveRows.filter fun r ↦ ¬r.HasKey ctx.out.arrow c key) +
          (files.map fun f ↦ (↑(st.content f.path).rows : Multiset (FullRow σ))).sum) := by
        rw [add_assoc, add_comm _ st.liveRows, hbalance]
    _ = st₁.liveRows + (st.liveRows.filter fun r ↦ ¬r.HasKey ctx.out.arrow c key) +
          (files.map fun f ↦ (↑(st.content f.path).rows : Multiset (FullRow σ))).sum := by
        rw [add_assoc]

/-- The update of found rows writes the updated rows and removes the found files. -/
theorem execute_update (hne : st.keyRows ctx.out.arrow c key ≠ [])
    (hcolumns : r.state.table.columns = st.table.columns)
    (hfound : foundRows r.foundFiles = st.keyRows ctx.out.arrow c key) :
    r.execute ctx (.update index) = (ctx.updated c key index st).bind fun rows ↦
      (r.writeRows ctx rows).bind (Redo.removeFound ctx) := by
  obtain ⟨data, hdata, hrows⟩ : ∃ data, keyRows r.foundFiles = some data ∧
      data.rows = st.keyRows ctx.out.arrow c key := by
    rw [foundRows] at hfound
    cases hkeyRows : keyRows r.foundFiles with
    | none =>
      rw [hkeyRows] at hfound
      exact absurd hfound.symm hne
    | some data =>
      rw [hkeyRows] at hfound
      exact ⟨data, rfl, hfound⟩
  rw [Redo.execute, RedoContext.updated, hcolumns, hdata]
  cases ctx.updateVals[index]? with
  | none => rfl
  | some values =>
    cases ctx.updateOps[index]? with
    | none => rfl
    | some op =>
      rw [← hrows]
      rfl

theorem writeRows_works (hworks : ctx.out.Works) (r : Redo σ) (rows : List (FullRow σ)) :
    ∃ written, ctx.out.conform ⟨[rows]⟩ = some written ∧ written.rows = rows ∧
      r.writeRows ctx rows = some { r with state := r.state.create ctx.out written } := by
  obtain ⟨written, hconform, hrows, hwrite⟩ := hworks.writeRows r.state ⟨[rows]⟩
  refine ⟨written, hconform, hrows.trans (List.flatten_singleton ..), ?_⟩
  rw [Redo.writeRows, hwrite]
  rfl

/-- Whether the redo has succeeded shows in the snapshot. -/
theorem redone_iff {r' : Redo σ} (hagrees : r'.state.table.Agrees version) :
    Redone ctx c key index version st (some r') ↔ ∃ rows, ctx.updated c key index st = some rows ∧
      r'.state.liveRows = (st.liveRows.filter fun r ↦ ¬r.HasKey ctx.out.arrow c key) + ↑rows := by
  have hcommit : rowsIn r'.state.content (r'.state.table.committedFiles version) =
      r'.state.liveRows := by
    rw [hagrees]
    exact rowsIn_liveFiles _ _
  constructor
  · rintro ⟨rows, r, hrows, hr, hlive, -⟩
    obtain rfl := Option.some.inj hr
    exact ⟨rows, hrows, hlive⟩
  · rintro ⟨rows, hrows, hlive⟩
    exact ⟨rows, r', hrows, rfl, hlive, hcommit.trans hlive⟩

/-! ### The orders -/

/-- The state before the update. -/
structure Before (ctx : RedoContext σ) (c : KeyColumn) (key : ByteString)
    (version : Finset ByteString) (st : State σ (List (Cell σ))) : Prop where
  sound : st.Sound ctx.out
  firstColumn : st.table.firstColumn = some c
  valid : st.table.Valid ctx.out.arrow c st.content
  basePath : st.table.deltaLog.basePath ≠ []
  agrees : st.table.Agrees version
  keyRows : st.keyRows ctx.out.arrow c key ≠ []

/-- The rows are removed first, then written. -/
theorem removed_then_updated {rows : List (FullRow σ)} (hworks : ctx.out.Works)
    (h : Before ctx c key version st) (hstate : r.state = st) (hretired : r.retiredFiles = [])
    (hsearched : Searched ctx c key st r.foundFiles)
    (hrows : ctx.updated c key index st = some rows) :
    Redone ctx c key index version st (r.run ctx [.deleteFound, .update index]) := by
  subst hstate
  obtain ⟨r₁, hremove, hfound, hloop, hmem, hkeeps⟩ :=
    removeFound_works ctx hworks h.sound hsearched.found hretired
  have hcolumns : r₁.state.table.columns = r.state.table.columns := by
    rw [TableStats.columns, TableStats.columns, hkeeps.schema]
  have hfoundRows : foundRows r₁.foundFiles = r.state.keyRows ctx.out.arrow c key := by
    rw [hfound]
    exact search_foundRows h.valid hsearched.eq
  obtain ⟨written, -, hwritten, hwrite⟩ := writeRows_works hworks r₁ rows
  have hcreate := keeps_create hkeeps.sound written
  have hupdate : r₁.execute ctx (.update index) =
      some { r₁ with state := r₁.state.create ctx.out written } := by
    rw [execute_update h.keyRows hcolumns hfoundRows, hrows, Option.bind_some, hwrite]
    exact removeFound_retired hmem
  have hrun : r.run ctx [.deleteFound, .update index] =
      some { r₁ with state := r₁.state.create ctx.out written } := by
    rw [Redo.run, List.foldlM_cons]
    change (r.removeFound ctx >>= fun r ↦ List.foldlM (Redo.execute ctx) r [.update index]) = _
    rw [hremove]
    change (r₁.execute ctx (.update index) >>= fun r ↦ List.foldlM (Redo.execute ctx) r []) = _
    rw [hupdate]
    rfl
  rw [hrun]
  refine (redone_iff ?_).mpr ⟨rows, hrows, ?_⟩
  · exact hcreate.agrees version (hkeeps.basePath ▸ h.basePath)
      (hkeeps.agrees version h.basePath h.agrees)
  · have hloss := removeLoop_searched hworks h.valid hsearched (.refl h.sound) hloop
    rw [add_comm] at hloss
    change (r₁.state.create ctx.out written).liveRows = _
    rw [hkeeps.sound.fresh.liveRows_create, hwritten, add_left_cancel hloss]

/-- The updated rows are written first, then the old ones are removed. -/
theorem updated_then_removed {rows : List (FullRow σ)} (hworks : ctx.out.Works)
    (h : Before ctx c key version st) (hstate : r.state = st) (hretired : r.retiredFiles = [])
    (hsearched : Searched ctx c key st r.foundFiles)
    (hrows : ctx.updated c key index st = some rows) :
    ∃ r' written, r.execute ctx (.update index) = some r' ∧
      ctx.out.conform ⟨[rows]⟩ = some written ∧ written.rows = rows ∧
      (∀ f ∈ r'.foundFiles, f.path ∈ r'.retiredFiles) ∧
      st.Keeps ctx.out (r.foundFiles.map (·.path)) r'.state ∧
      r'.state.liveRows =
        (st.liveRows.filter fun r ↦ ¬r.HasKey ctx.out.arrow c key) + ↑rows ∧
      r'.state.table.deltaLog.Live (ctx.out.newName st.asked)
        (TableStats.createdEntry (st.createdStats ctx.out written)) ∧
      r'.state.content (st.newDataFilePath ctx.out st.asked) = written := by
  subst hstate
  have hfoundRows : foundRows r.foundFiles = r.state.keyRows ctx.out.arrow c key :=
    search_foundRows h.valid hsearched.eq
  obtain ⟨written, hconform, hwritten, hwrite⟩ := writeRows_works hworks r rows
  have hcreate := keeps_create h.sound written
  have hfound : FoundFiles (r.state.create ctx.out written) r.foundFiles :=
    hsearched.found.keeps hcreate fun _ _ ↦ List.not_mem_nil
  obtain ⟨r', hremove, hfiles, hloop, hmem, hkeeps⟩ :=
    removeFound_works ctx (r := { r with state := r.state.create ctx.out written }) hworks
      hcreate.sound hfound hretired
  -- the new file is not among the found ones
  have hnot : (r.state.create ctx.out written).table.deltaLog.basePath ++
      ctx.out.newName r.state.asked ∉ r.foundFiles.map (·.path) := by
    intro hpath
    obtain ⟨f, hf, hpath⟩ := List.mem_map.mp hpath
    obtain ⟨p, e, hp, hpath'⟩ := hsearched.found.live f hf
    exact h.sound.fresh.ne_live le_rfl hp (List.append_cancel_left (hpath'.symm.trans hpath))
  obtain ⟨hlive, hcontent⟩ := hkeeps.live _ _ hnot (h.sound.fresh.live_create written)
  refine ⟨r', written, ?_, hconform, hwritten, hmem, hcreate.trans hkeeps, ?_, hlive, ?_⟩
  · rw [execute_update h.keyRows rfl hfoundRows, hrows, Option.bind_some, hwrite]
    exact hremove
  · have hloss := removeLoop_searched hworks h.valid hsearched hcreate hloop
    rw [h.sound.fresh.liveRows_create, hwritten] at hloss
    apply add_right_cancel (b := r.state.liveRows)
    rw [hloss, add_comm (r.state.liveRows + _), add_comm r.state.liveRows, ← add_assoc]
  · exact hcontent.trans (State.content_create _ _ _)

/-- After the update the key is found again only in the new file. -/
theorem searched_eq_nil_iff {rows : List (FullRow σ)} {written : DataTable σ (List (Cell σ))}
    (h : Before ctx c key version st) {gone : List ByteString} (hkeeps : st.Keeps ctx.out gone st₁)
    (hsearched : Searched ctx c key st₁ files)
    (hconform : ctx.out.conform ⟨[rows]⟩ = some written) (hwritten : written.rows = rows)
    (hlive : st₁.table.deltaLog.Live (ctx.out.newName st.asked)
      (TableStats.createdEntry (st.createdStats ctx.out written)))
    (hcontent : st₁.content (st.newDataFilePath ctx.out st.asked) = written)
    (hrows : st₁.liveRows =
      (st.liveRows.filter fun r ↦ ¬r.HasKey ctx.out.arrow c key) + ↑rows) :
    files = [] ↔ ¬ctx.FindsAgain c key rows := by
  have hpath : st₁.table.deltaLog.basePath ++ ctx.out.newName st.asked =
      st.newDataFilePath ctx.out st.asked := by
    rw [hkeeps.basePath]
    rfl
  rw [hsearched.eq, List.filterMap_eq_nil_iff]
  constructor
  · rintro hnil ⟨written', hconform', hclass, r, hr, hmatch⟩
    obtain rfl := Option.some.inj (hconform.symm.trans hconform')
    have hnone := hnil _ hlive.1
    rw [hpath, hcontent, keyFileAt_read] at hnone
    rw [if_pos ⟨hlive.2, hclass, fun hnil ↦ rowsOf_eq_nil.mp hnil r (hwritten ▸ hr) hmatch⟩]
      at hnone
    cases hnone
  · rintro hagain ⟨q, e⟩ he
    rw [keyFileAt_read]
    refine if_neg ?_
    rintro ⟨hadd, hclass, hfound⟩
    obtain ⟨r, hr, hmatch⟩ : ∃ r ∈ (st₁.content (st₁.table.deltaLog.basePath ++ q)).rows,
        r.matches ctx.out.arrow (KeyMatcher.make ctx.out.arrow c.type key) = true := by
      by_contra hnone
      exact hfound (rowsOf_eq_nil.mpr fun r hr hmatch ↦ hnone ⟨r, hr, hmatch⟩)
    by_cases hq : q = ctx.out.newName st.asked
    · subst hq
      obtain ⟨hlookup, -⟩ := DeltaLogManager.live_iff_lookup.mp hlive
      obtain ⟨hlookup', -⟩ := DeltaLogManager.live_iff_lookup.mp ⟨he, hadd⟩
      obtain rfl := Option.some.inj (hlookup.symm.trans hlookup')
      rw [hpath, hcontent, hwritten] at hr
      exact hagain ⟨written, hconform, hclass, r, hr, hmatch⟩
    · -- the other live files hold rows of other keys
      have hothers : (st₁.without (ctx.out.newName st.asked)).liveRows =
          st.liveRows.filter fun r ↦ ¬r.HasKey ctx.out.arrow c key := by
        have hsplit := State.liveRows_without st₁
          (DeltaLogManager.live_iff_lookup.mp hlive).1 hlive.2
        rw [TableStats.fullPath, hpath, hcontent, hwritten, hrows] at hsplit
        exact add_right_cancel hsplit
      have hmem : r ∈ (st₁.without (ctx.out.newName st.asked)).liveRows := by
        refine mem_liveRows.mpr ⟨q, e, live_without.mpr ⟨⟨he, hadd⟩, hq⟩, ?_⟩
        have hne : st₁.table.deltaLog.basePath ++ q ≠
            st₁.table.fullPath (ctx.out.newName st.asked) := fun h ↦ hq (List.append_cancel_left h)
        exact State.without_content hne ▸ hr
      rw [hothers, Multiset.mem_filter] at hmem
      obtain ⟨p, e', hp, hr'⟩ := mem_liveRows.mp hmem.1
      have hvalid : (KeyMatcher.make ctx.out.arrow c.type key).valid = true := by
        by_contra hinvalid
        exact hclass (KeyMatcher.classify_of_not_valid
          (.inl (Bool.eq_false_of_not_eq_true hinvalid)))
      have htype : ∀ v ∈ r.key, v.HasType c.type := fun v hv ↦
        (h.valid p e' hp).hasType v (List.mem_filterMap.mpr ⟨r, hr', hv⟩)
      exact hmem.2 ((matches_iff htype hvalid).mp hmatch)

/-- A removal after the update takes the updated rows if it finds them. -/
theorem removed_again {rows : List (FullRow σ)} (hworks : ctx.out.Works)
    (h : Before ctx c key version st) (hstate : r.state = st) (hretired : r.retiredFiles = [])
    (hsearched : Searched ctx c key st r.foundFiles)
    (hrows : ctx.updated c key index st = some rows) :
    Redone ctx c key index version st (r.run ctx [.update index, .search key, .deleteFound]) ↔
      ¬ctx.FindsAgain c key rows := by
  obtain ⟨r₁, written, hupdate, hconform, hwritten, -, hkeeps, hlive₁, hlive, hcontent⟩ :=
    updated_then_removed hworks h hstate hretired hsearched hrows
  have hcol₁ : r₁.state.table.firstColumn = some c := by
    rw [TableStats.firstColumn, hkeeps.schema]
    exact h.firstColumn
  obtain ⟨r₂, hsearch, hstate₂, hretired₂, hsearched₂⟩ :=
    execute_search key hworks hkeeps.sound hcol₁
  have hsound₂ : r₂.state.Sound ctx.out := hstate₂ ▸ hkeeps.sound
  have hfound₂ : FoundFiles r₂.state r₂.foundFiles := hstate₂ ▸ hsearched₂.found
  obtain ⟨r₃, hremove, -, hloop, -, hkeeps₃⟩ :=
    removeFound_works ctx hworks hsound₂ hfound₂ hretired₂
  have hrun : r.run ctx [.update index, .search key, .deleteFound] = some r₃ := by
    rw [Redo.run, List.foldlM_cons, hupdate]
    change (r₁.execute ctx (.search key) >>= fun r ↦
      List.foldlM (Redo.execute ctx) r [.deleteFound]) = _
    rw [hsearch]
    change (r₂.removeFound ctx >>= fun r ↦ List.foldlM (Redo.execute ctx) r []) = _
    rw [hremove]
    rfl
  have hagrees₂ : r₂.state.table.Agrees version := by
    rw [hstate₂]
    exact hkeeps.agrees version h.basePath h.agrees
  have hbase₂ : r₂.state.table.deltaLog.basePath ≠ [] := by
    rw [hstate₂, hkeeps.basePath]
    exact h.basePath
  rw [hrun, redone_iff (hkeeps₃.agrees version hbase₂ hagrees₂)]
  rw [hstate₂] at hloop
  have hless := removeLoop_found hworks hkeeps.sound hsearched₂.found hsearched₂.eq hloop
  rw [← searched_eq_nil_iff h hkeeps hsearched₂ hconform hwritten hlive hcontent hlive₁, ← hless,
    hlive₁]
  constructor
  · rintro ⟨rows', hrows', hafter⟩
    obtain rfl := Option.some.inj (hrows.symm.trans hrows')
    exact hafter
  · exact fun hafter ↦ ⟨rows, hrows, hafter⟩

/-- A search is made again without a change in between. -/
theorem run_search (hworks : ctx.out.Works) (h : Before ctx c key version st)
    (hstate : r.state = st) (steps : List RedoStep) :
    ∃ r' : Redo σ, r.run ctx (.search key :: steps) = r'.run ctx steps ∧ r'.state = st ∧
      r'.retiredFiles = [] ∧ Searched ctx c key st r'.foundFiles := by
  subst hstate
  obtain ⟨r', hsearch, hstate, hretired, hsearched⟩ :=
    execute_search key hworks h.sound h.firstColumn
  refine ⟨r', ?_, hstate, hretired, hsearched⟩
  rw [Redo.run, List.foldlM_cons, hsearch]
  rfl

/-- A removal after the update finds nothing to remove if there was no search in between. -/
theorem updated_redone {rows : List (FullRow σ)} (hworks : ctx.out.Works)
    (h : Before ctx c key version st) (hstate : r.state = st) (hretired : r.retiredFiles = [])
    (hsearched : Searched ctx c key st r.foundFiles)
    (hrows : ctx.updated c key index st = some rows) :
    Redone ctx c key index version st (r.run ctx [.update index, .deleteFound]) := by
  obtain ⟨r', written, hupdate, -, -, hmem, hkeeps, hlive, -, -⟩ :=
    updated_then_removed hworks h hstate hretired hsearched hrows
  have hrun : r.run ctx [.update index, .deleteFound] = some r' := by
    rw [Redo.run, List.foldlM_cons, hupdate]
    change (r'.removeFound ctx >>= fun r ↦ List.foldlM (Redo.execute ctx) r []) = _
    rw [removeFound_retired hmem]
    rfl
  rw [hrun]
  exact (redone_iff (hkeeps.agrees version h.basePath h.agrees)).mpr ⟨rows, hrows, hlive⟩

end Steps

/-- **Order of the halves.** For every order of the steps of an update of a key, after the search of
the preceding read, the redo succeeds and leaves the updated rows and those of the other keys if and
only if the operation can be applied to the rows of the key and the update does not come before the
search of the removal, unless that search finds none of the updated rows. -/
theorem redo_order_iff {ctx : RedoContext σ} {c : KeyColumn} {key : ByteString} {index : ℕ}
    {st : State σ (List (Cell σ))} {version : Finset ByteString} (hworks : ctx.out.Works)
    (h : Before ctx c key version st) {r : Redo σ} (hstate : r.state = st) {steps : List RedoStep}
    (horder : Interleaving [.search key, .deleteFound] [.update index] steps) :
    Redone ctx c key index version st (r.run ctx (.search key :: steps)) ↔
      ∃ rows, ctx.updated c key index st = some rows ∧
        (steps.head? = some (.update index) → ¬ctx.FindsAgain c key rows) := by
  obtain ⟨r₁, hrun, hstate₁, hretired₁, hsearched₁⟩ := run_search hworks h hstate steps
  rw [hrun]
  cases hrows : ctx.updated c key index st with
  | none =>
    refine iff_of_false ?_ fun ⟨rows, hsome, _⟩ ↦ nomatch hsome
    rintro ⟨rows, -, hsome, -⟩
    cases hrows.symm.trans hsome
  | some rows =>
    have hcondition : (∃ rows', some rows = some rows' ∧
        (steps.head? = some (.update index) → ¬ctx.FindsAgain c key rows')) ↔
        (steps.head? = some (.update index) → ¬ctx.FindsAgain c key rows) := by simp
    rw [hcondition]
    rcases horder.cases_two with rfl | rfl | rfl
    · obtain ⟨r₂, hrun₂, hstate₂, hretired₂, hsearched₂⟩ := run_search hworks h hstate₁ _
      rw [hrun₂]
      refine iff_of_true ?_ fun hhead ↦ nomatch hhead
      exact removed_then_updated hworks h hstate₂ hretired₂ hsearched₂ hrows
    · obtain ⟨r₂, hrun₂, hstate₂, hretired₂, hsearched₂⟩ := run_search hworks h hstate₁ _
      rw [hrun₂]
      refine iff_of_true ?_ fun hhead ↦ nomatch hhead
      exact updated_redone hworks h hstate₂ hretired₂ hsearched₂ hrows
    · rw [removed_again hworks h hstate₁ hretired₁ hsearched₁ hrows]
      exact ⟨fun hagain _ ↦ hagain, fun hagain ↦ hagain rfl⟩

/-! ## A table with one file -/

/-- Storage that answers, and the update 0, which replaces the column `v`. -/
def sampleContext : RedoContext Unit where
  out :=
    { arrow := sampleArrow
      conform := some
      statistics := fun _ ↦ {}
      encodedSize := fun _ ↦ 4
      newName := fun n ↦ ascii "n" ++ decimal n
      canRead := fun _ ↦ true
      canWrite := fun _ ↦ true }
  float _ _ _ := none
  updateVals := [[(ascii "v", ascii "new")]]
  updateOps := [.rep]

/-- The table `b/` with the columns `k` and `v` and the file `f`, with rows of two keys. -/
def sampleRows : State Unit (List (Cell Unit)) where
  table :=
    { deltaLog :=
        { basePath := ascii "b/"
          files := [(ascii "f", { operation := .add })]
          nodup := List.nodup_singleton _ }
      schema := .ok (some
        { fields :=
            [{ name := ascii "k", type := .string }, { name := ascii "v", type := .string }] }) }
  stored path :=
    if path = ascii "b/f" then
      some ⟨[[⟨some (.text (ascii "a")), [some (.text (ascii "old"))]⟩,
        ⟨some (.text (ascii "b")), [none]⟩]]⟩
    else none

theorem sampleContext_works : sampleContext.out.Works where
  canRead _ := rfl
  canWrite _ := rfl
  conform t := ⟨t, rfl, rfl⟩

theorem sampleRows_before :
    Before sampleContext sampleColumn (ascii "a") {ascii "b/f"} sampleRows where
  sound := by
    refine ⟨⟨fun _ _ ↦ rfl, fun m n _ _ h ↦ ?_⟩, fun q e hq ↦ ?_⟩
    · have hdigits := List.append_cancel_left h
      rw [← ofDecimal_decimal m, hdigits, ofDecimal_decimal]
    · obtain ⟨rfl, rfl⟩ := Prod.mk.inj (List.mem_singleton.mp hq.1)
      exact ⟨_, rfl⟩
  firstColumn := rfl
  valid := by
    rintro path e ⟨hmem, -⟩
    obtain ⟨rfl, rfl⟩ := Prod.mk.inj (List.mem_singleton.mp hmem)
    refine ⟨?_, fun h ↦ absurd rfl h, fun _ _ h ↦ (nomatch h), fun _ _ h ↦ nomatch h⟩
    have hvalues : (sampleRows.content (ascii "b/f")).values =
        [.text (ascii "a"), .text (ascii "b")] := rfl
    intro v hv
    change v ∈ (sampleRows.content (ascii "b/f")).values at hv
    rw [hvalues, List.mem_cons, List.mem_singleton] at hv
    rcases hv with rfl | rfl
    · trivial
    · trivial
  basePath := List.cons_ne_nil _ _
  agrees := by
    unfold TableStats.Agrees
    decide +kernel
  keyRows := by decide +kernel

theorem updated_sampleRows : sampleContext.updated sampleColumn (ascii "a") 0 sampleRows =
    some [⟨some (.text (ascii "a")), [some (.text (ascii "new"))]⟩] := by decide +kernel

/-- The update comes between the search and the removal. -/
theorem redo_order_sample :
    Redone sampleContext sampleColumn (ascii "a") 0 {ascii "b/f"} sampleRows
      (({ state := sampleRows } : Redo Unit).run sampleContext
        [.search (ascii "a"), .search (ascii "a"), .update 0, .deleteFound]) :=
  (redo_order_iff sampleContext_works sampleRows_before rfl (.left (.right (.left .nil)))).mpr
    ⟨_, updated_sampleRows, fun h ↦ nomatch h⟩

/-- The update comes before the search of the removal, which finds the updated row: it is lost. -/
theorem updated_row_removed :
    Before sampleContext sampleColumn (ascii "a") {ascii "b/f"} sampleRows ∧
      sampleContext.out.Works ∧
      Interleaving [RedoStep.search (ascii "a"), .deleteFound] [.update 0]
        [.update 0, .search (ascii "a"), .deleteFound] ∧
      ¬Redone sampleContext sampleColumn (ascii "a") 0 {ascii "b/f"} sampleRows
        (({ state := sampleRows } : Redo Unit).run sampleContext
          [.search (ascii "a"), .update 0, .search (ascii "a"), .deleteFound]) := by
  refine ⟨sampleRows_before, sampleContext_works, .right (.left (.left .nil)), ?_⟩
  obtain ⟨r, hrun, hstate, hretired, hsearched⟩ := run_search sampleContext_works
    sampleRows_before (r := { state := sampleRows }) rfl
    [.update 0, .search (ascii "a"), .deleteFound]
  rw [hrun, removed_again sampleContext_works sampleRows_before hstate hretired hsearched
    updated_sampleRows, not_not]
  exact ⟨_, rfl, by decide +kernel, by decide +kernel⟩

end LakeVilla.Keys
