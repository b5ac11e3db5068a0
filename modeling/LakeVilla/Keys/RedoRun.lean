import LakeVilla.Keys.Redo
import LakeVilla.Keys.Without

/-!
# What redo steps do to the rows

A search finds the files with rows of the key, a new file adds its rows, and the removal of found
files takes the rows of the key out of the snapshot. What all of them keep is `Keeps`.
-/

namespace LakeVilla.Keys

variable {σ ρ : Type} {out : Outside σ ρ} {st st' st'' : State σ ρ} {c : KeyColumn}
  {key : ByteString}

/-! ## States -/

/-- Storage answers, and rows are written as they are. -/
structure Outside.Works (out : Outside σ ρ) : Prop where
  canRead : ∀ path, out.canRead path = true
  canWrite : ∀ path, out.canWrite path = true
  conform : ∀ t, ∃ t', out.conform t = some t' ∧ t'.rows = t.rows

theorem Outside.Works.keepsRows (h : out.Works) : out.KeepsRows := by
  intro t t' ht
  obtain ⟨t'', ht'', hrows⟩ := h.conform t
  obtain rfl := Option.some.inj (ht.symm.trans ht'')
  exact hrows

namespace State

/-- The live files are stored, and names of new files are new. -/
structure Sound (out : Outside σ ρ) (st : State σ ρ) : Prop where
  fresh : st.FreshNames out
  stored : ∀ q e, st.table.deltaLog.Live q e →
    ∃ data, st.stored (st.table.deltaLog.basePath ++ q) = some data

/-- What a step keeps that removes the files `gone`. -/
structure Keeps (out : Outside σ ρ) (gone : List ByteString) (st st' : State σ ρ) : Prop where
  basePath : st'.table.deltaLog.basePath = st.table.deltaLog.basePath
  schema : st'.table.schema = st.table.schema
  sound : st'.Sound out
  live : ∀ q e, st.table.deltaLog.basePath ++ q ∉ gone → st.table.deltaLog.Live q e →
    st'.table.deltaLog.Live q e ∧ st'.content (st.table.deltaLog.basePath ++ q) =
      st.content (st.table.deltaLog.basePath ++ q)
  agrees : ∀ version, st.table.deltaLog.basePath ≠ [] → st.table.Agrees version →
    st'.table.Agrees version

theorem Keeps.refl (h : st.Sound out) : st.Keeps out [] st where
  basePath := rfl
  schema := rfl
  sound := h
  live _ _ _ hq := ⟨hq, rfl⟩
  agrees _ _ h := h

theorem Keeps.trans {gone gone' : List ByteString} (h : st.Keeps out gone st')
    (h' : st'.Keeps out gone' st'') : st.Keeps out (gone ++ gone') st'' where
  basePath := h'.basePath.trans h.basePath
  schema := h'.schema.trans h.schema
  sound := h'.sound
  live q e hgone hq := by
    rw [List.mem_append, not_or] at hgone
    obtain ⟨hq', hcontent⟩ := h.live q e hgone.1 hq
    have hgone' : st'.table.deltaLog.basePath ++ q ∉ gone' := h.basePath ▸ hgone.2
    obtain ⟨hq'', hcontent'⟩ := h'.live q e hgone' hq'
    rw [h.basePath] at hcontent'
    exact ⟨hq'', hcontent'.trans hcontent⟩
  agrees version hbase hversion :=
    h'.agrees version (h.basePath ▸ hbase) (h.agrees version hbase hversion)

end State

theorem mem_liveRows {r : Row σ ρ} : r ∈ st.liveRows ↔ ∃ q e, st.table.deltaLog.Live q e ∧
    r ∈ (st.content (st.table.deltaLog.basePath ++ q)).rows := by
  rw [State.liveRows, Multiset.mem_coe, DeltaLogManager.liveRows, List.mem_flatMap]
  constructor
  · rintro ⟨⟨q, e⟩, he, hr⟩
    split_ifs at hr with hadd
    · exact ⟨q, e, ⟨he, hadd⟩, hr⟩
    · cases hr
  · rintro ⟨q, e, ⟨he, hadd⟩, hr⟩
    exact ⟨(q, e), he, by rwa [if_pos hadd]⟩

/-! ## New files -/

theorem DeltaLogManager.lookup_registerOperation_new {log : DeltaLogManager} {op : DLOperation}
    {p : ByteString} {entry : DeltaLogEntry} {overwrite : Bool} (h : log.files.lookup p = none) :
    (log.registerOperation op (log.basePath ++ p) entry overwrite).files.lookup p =
      some entry := by
  simp only [registerOperation, relative_append, AssocList.lookup_insertOrAssign, h, if_true]

theorem State.FreshNames.live_create (h : st.FreshNames out) (rows : DataTable σ ρ) :
    (st.create out rows).table.deltaLog.Live (out.newName st.asked)
      (TableStats.createdEntry (st.createdStats out rows)) :=
  DeltaLogManager.live_iff_lookup.mpr
    ⟨DeltaLogManager.lookup_registerOperation_new (h.notLogged st.asked le_rfl), rfl⟩

/-- A live file is the new one, or was live before. -/
theorem live_create {rows : DataTable σ ρ} {q : ByteString} {e : DeltaLogEntry}
    (hq : (st.create out rows).table.deltaLog.Live q e) :
    q = out.newName st.asked ∨ st.table.deltaLog.Live q e := by
  by_cases hname : q = out.newName st.asked
  · exact .inl hname
  · refine .inr ((DeltaLogManager.live_registerOperation_of_ne ?_).mp hq)
    exact fun h ↦ hname (h.trans (DeltaLogManager.relative_append _ _))

theorem keeps_create (h : st.Sound out) (rows : DataTable σ ρ) :
    st.Keeps out [] (st.create out rows) where
  basePath := rfl
  schema := rfl
  sound := by
    refine ⟨h.fresh.create rows, fun q e hq ↦ ?_⟩
    by_cases hpath : st.table.deltaLog.basePath ++ q = st.newDataFilePath out st.asked
    · refine ⟨rows, ?_⟩
      change Function.update st.stored _ _ (st.table.deltaLog.basePath ++ q) = _
      rw [hpath, Function.update_self]
    · have hq' : st.table.deltaLog.Live q e := by
        refine (live_create hq).resolve_left ?_
        rintro rfl
        exact hpath rfl
      obtain ⟨data, hdata⟩ := h.stored q e hq'
      refine ⟨data, ?_⟩
      change Function.update st.stored _ _ (st.table.deltaLog.basePath ++ q) = _
      rw [Function.update_of_ne hpath, hdata]
  live q e _ hq := ⟨hq.registerAdd, h.fresh.content_create_of_live hq⟩
  agrees _ hbase hversion := h.fresh.agrees_create rows hbase hversion

/-- Rows are written to a new file. -/
theorem Outside.Works.writeRows (h : out.Works) (st : State σ ρ) (rows : DataTable σ ρ) :
    ∃ rows', out.conform rows = some rows' ∧ rows'.rows = rows.rows ∧
      st.writeRows out rows = some (st.create out rows') := by
  obtain ⟨rows', hconform, hrows⟩ := h.conform rows
  refine ⟨rows', hconform, hrows, ?_⟩
  rw [State.writeRows, hconform]
  exact if_pos (h.canWrite _)

/-! ## Removed files -/

theorem keeps_drop (h : st.Sound out) {f : KeyFile σ ρ} {p : ByteString} {e : DeltaLogEntry}
    (hlive : st.table.deltaLog.Live p e) (hpath : f.path = st.table.deltaLog.basePath ++ p) :
    st.Keeps out [f.path] (st.drop f) where
  basePath := rfl
  schema := rfl
  sound := by
    refine ⟨h.fresh.drop hlive hpath, fun q e' hq ↦ ?_⟩
    by_cases hq' : q = p
    · subst hq'
      exact h.stored q e hlive
    · exact h.stored q e' ((live_drop_of_ne hpath hq').mp hq)
  live q e' hgone hq := by
    refine ⟨(live_drop_of_ne hpath ?_).mpr hq, rfl⟩
    rintro rfl
    exact hgone (List.mem_singleton.mpr hpath.symm)
  agrees _ hbase hversion := agrees_drop hlive hpath hbase hversion

theorem keeps_rewrite (h : st.Sound out) {f : KeyFile σ ρ} {p : ByteString} {e : DeltaLogEntry}
    (hlive : st.table.deltaLog.Live p e) (hpath : f.path = st.table.deltaLog.basePath ++ p)
    (rest : DataTable σ ρ) : st.Keeps out [f.path] (st.rewrite out f rest) := by
  have hcreate := keeps_create h rest
  have hdrop := keeps_drop hcreate.sound (hcreate.live p e List.not_mem_nil hlive).1 hpath
  exact hcreate.trans hdrop

/-- A file that was read is removed. -/
theorem removeKeyRows_works (hworks : out.Works) (h : st.Sound out) {f : KeyFile σ ρ}
    {p : ByteString} {e : DeltaLogEntry} (hlive : st.table.deltaLog.Live p e)
    (hpath : f.path = st.table.deltaLog.basePath ++ p) (hdata : f.data.isSome = true) :
    ∃ st', removeKeyRows out st f = (true, st') ∧ st.Keeps out [f.path] st' := by
  rcases removeKeyRows_cases out st f with ⟨-, hf⟩ | ⟨-, rest, -, -, hf⟩ | ⟨hcannot, -⟩
  · exact ⟨_, hf, keeps_drop h hlive hpath⟩
  · exact ⟨_, hf, keeps_rewrite h hlive hpath rest⟩
  · obtain ⟨data, hdata⟩ := Option.isSome_iff_exists.mp hdata
    obtain ⟨rest, hconform, -⟩ :=
      hworks.conform (selectRows data (otherRows data.numRows f.rows))
    have hrest : f.rest out = some rest := by rw [KeyFile.rest, hdata, Option.bind_some, hconform]
    cases (hworks.canWrite _).symm.trans (hcannot.2 rest hrest)

/-- Files that are retired already are not removed again. -/
theorem removeFoundRows_retired {files : List (KeyFile σ ρ)} {retired : List ByteString}
    (h : ∀ f ∈ files, f.path ∈ retired) (st : State σ ρ) :
    removeFoundRows out files retired st = some (retired, st) := by
  induction files with
  | nil => rfl
  | cons f files ih =>
    rw [removeFoundRows, if_pos (h f List.mem_cons_self)]
    exact ih fun g hg ↦ h g (List.mem_cons_of_mem _ hg)

/-- The found files are live and were read, and each of them once. -/
structure FoundFiles (st : State σ ρ) (files : List (KeyFile σ ρ)) : Prop where
  live : ∀ f ∈ files, ∃ p e, st.table.deltaLog.Live p e ∧
    f.path = st.table.deltaLog.basePath ++ p
  nodup : (files.map (·.path)).Nodup
  data : ∀ f ∈ files, f.data.isSome = true

/-- Files are still found after a step that leaves them. -/
theorem FoundFiles.keeps {files : List (KeyFile σ ρ)} {gone : List ByteString}
    (h : FoundFiles st files) (hkeeps : st.Keeps out gone st')
    (hgone : ∀ f ∈ files, f.path ∉ gone) :
    FoundFiles st' files where
  live f hf := by
    obtain ⟨p, e, hp, hpath⟩ := h.live f hf
    refine ⟨p, e, (hkeeps.live p e ?_ hp).1, hkeeps.basePath ▸ hpath⟩
    exact hpath ▸ hgone f hf
  nodup := h.nodup
  data := h.data

/-- Found files that are not retired are removed. -/
theorem removeFoundRows_works (hworks : out.Works) (h : st.Sound out) {files : List (KeyFile σ ρ)}
    (hfiles : FoundFiles st files) {retired : List ByteString}
    (hretired : ∀ f ∈ files, f.path ∉ retired) :
    ∃ retired' st', removeFoundRows out files retired st = some (retired', st') ∧
      removeLoop out files st = (true, st') ∧ (∀ f ∈ files, f.path ∈ retired') ∧
      retired ⊆ retired' ∧ st.Keeps out (files.map (·.path)) st' := by
  induction files generalizing st retired with
  | nil => exact ⟨retired, st, rfl, rfl, by simp, List.Subset.refl _, .refl h⟩
  | cons f files ih =>
    obtain ⟨p, e, hp, hpath⟩ := hfiles.live f List.mem_cons_self
    obtain ⟨st₁, hstep, hkeeps⟩ :=
      removeKeyRows_works hworks h hp hpath (hfiles.data f List.mem_cons_self)
    have hnodup := List.nodup_cons.mp hfiles.nodup
    have hne : ∀ g ∈ files, g.path ≠ f.path := fun g hg heq ↦
      hnodup.1 (List.mem_map.mpr ⟨g, hg, heq⟩)
    have hrest : FoundFiles st files :=
      ⟨fun g hg ↦ hfiles.live g (List.mem_cons_of_mem _ hg), hnodup.2,
        fun g hg ↦ hfiles.data g (List.mem_cons_of_mem _ hg)⟩
    have hrest₁ : FoundFiles st₁ files :=
      hrest.keeps hkeeps fun g hg hmem ↦ hne g hg (List.mem_singleton.mp hmem)
    have hretired₁ : ∀ g ∈ files, g.path ∉ f.path :: retired := by
      intro g hg hmem
      rcases List.mem_cons.mp hmem with heq | hmem
      · exact hne g hg heq
      · exact hretired g (List.mem_cons_of_mem _ hg) hmem
    obtain ⟨retired', st', hrun, hloop, hmem, hsub, hkeeps'⟩ := ih hkeeps.sound hrest₁ hretired₁
    refine ⟨retired', st', ?_, ?_, ?_, fun q hq ↦ hsub (List.mem_cons_of_mem _ hq),
      hkeeps.trans hkeeps'⟩
    · rw [removeFoundRows, if_neg (hretired f List.mem_cons_self), hstep]
      exact hrun
    · rw [removeLoop, hstep]
      exact hloop
    · intro g hg
      rcases List.mem_cons.mp hg with rfl | hg
      · exact hsub List.mem_cons_self
      · exact hmem g hg

/-! ## Searching the key -/

section Search

variable {arrow : Arrow σ} {m : KeyMatcher σ} {created : List (ByteString × FileStats)}
  {path : ByteString} {data : DataTable σ ρ} {e : DeltaLogEntry} {f : KeyFile σ ρ}

/-- With `read_exact` a file is found if it has a row that matches. -/
theorem keyFileAt_read :
    keyFileAt arrow c key true created none path data e =
      if e.operation = .add ∧ classifyEntry arrow c key e ≠ .none ∧
          (KeyMatcher.make arrow c.type key).rowsOf arrow data.chunks 0 ≠ [] then
        some
          { path := path, data := some data
            rows := (KeyMatcher.make arrow c.type key).rowsOf arrow data.chunks 0
            exact := classifyEntry arrow c key e = .exact }
      else none := by
  have hread : ¬(classifyEntry arrow c key e = .exact ∧ true = false) := fun h ↦ nomatch h.2
  rw [keyFileAt, keyFileOf, if_neg hread]
  dsimp only
  by_cases hfound : e.operation = .add ∧ classifyEntry arrow c key e ≠ .none
  · rw [if_pos ⟨hfound.1, rfl, hfound.2⟩]
    by_cases hrows : (KeyMatcher.make arrow c.type key).rowsOf arrow data.chunks 0 = []
    · rw [if_pos (List.isEmpty_iff.mpr hrows), if_neg fun h ↦ h.2.2 hrows]
    · rw [if_neg fun h ↦ hrows (List.isEmpty_iff.mp h), if_pos ⟨hfound.1, hfound.2, hrows⟩]
  · rw [if_neg fun h ↦ hfound ⟨h.1, h.2.2⟩, if_neg fun h ↦ hfound ⟨h.1, h.2.1⟩]

theorem rowsOf_eq_nil : m.rowsOf arrow data.chunks 0 = [] ↔
    ∀ r ∈ data.rows, ¬r.matches arrow m = true := by
  rw [← List.length_eq_zero_iff, rowsOf_length, List.length_eq_zero_iff, List.filter_eq_nil_iff]

/-- A file that is found loses a row. -/
theorem keptRows_length_lt
    (h : keyFileAt arrow c key true created none path data e = some f) :
    f.keptRows.length < data.rows.length := by
  rw [keyFileAt_read] at h
  split_ifs at h with hfound
  obtain rfl := Option.some.inj h
  have hsplit := List.length_eq_length_filter_add (l := data.rows)
    (·.matches arrow (KeyMatcher.make arrow c.type key))
  have hpos := List.length_pos_of_ne_nil hfound.2.2
  rw [rowsOf_length] at hpos
  by_cases hexact : classifyEntry arrow c key e = .exact
  · have hkept : KeyFile.keptRows
        { path := path, data := some data
          rows := (KeyMatcher.make arrow c.type key).rowsOf arrow data.chunks 0
          exact := classifyEntry arrow c key e = .exact } = [] := by
      rw [KeyFile.keptRows, if_pos]
      simp [KeyFile.allRows, hexact]
    rw [hkept, List.length_nil]
    omega
  · rw [decide_eq_false hexact, keptRows_of_read rfl]
    omega

/-- The rows of a live file, and what the search makes of them. -/
theorem keyFileAt_read_balance (h : e.operation = .add → ValidFile arrow c data e) :
    (if e.operation = .add then (↑data.rows : Multiset (Row σ ρ)) else 0) +
        ((keyFileAt arrow c key true created none path data e).toList.map fun f ↦
          (↑f.keptRows : Multiset (Row σ ρ))).sum =
      (if e.operation = .add then ↑(data.rows.filter fun r ↦ ¬r.HasKey arrow c key) else 0) +
        ((keyFileAt arrow c key true created none path data e).toList.map fun _ ↦
          (↑data.rows : Multiset (Row σ ρ))).sum := by
  rw [keyFileAt_read]
  by_cases hadd : e.operation = .add
  · have hvalid := h hadd
    simp only [hadd, true_and, if_true]
    split_ifs with hfound
    · have hkept : KeyFile.keptRows
          { path := path, data := some data
            rows := (KeyMatcher.make arrow c.type key).rowsOf arrow data.chunks 0
            exact := classifyEntry arrow c key e = .exact } =
          data.rows.filter fun r ↦ ¬r.HasKey arrow c key := by
        rw [← hvalid.filter_not_matches hfound.1]
        by_cases hexact : classifyEntry arrow c key e = .exact
        · -- the only row matches
          obtain ⟨r, hr, -⟩ := hvalid.of_exact hexact
          have hmatch : r.matches arrow (KeyMatcher.make arrow c.type key) = true := by
            by_contra hmatch
            refine hfound.2 (rowsOf_eq_nil.mpr fun r' hr' ↦ ?_)
            rw [hr, List.mem_singleton] at hr'
            exact hr' ▸ hmatch
          rw [KeyFile.keptRows, if_pos (by simp [KeyFile.allRows, hexact]), hr]
          simp [hmatch]
        · rw [decide_eq_false hexact, keptRows_of_read rfl]
      simp only [Option.toList_some, List.map_cons, List.map_nil, List.sum_cons, List.sum_nil,
        add_zero]
      rw [hkept, add_comm]
    · have hkeep : (data.rows.filter fun r ↦ ¬r.HasKey arrow c key) = data.rows := by
        refine List.filter_eq_self.mpr fun r hr ↦ decide_eq_true fun hkey ↦ ?_
        have hnone := hvalid.classify_ne_none hr hkey
        refine hfound ⟨hnone, fun hrows ↦ rowsOf_eq_nil.mp hrows r hr ?_⟩
        rw [hvalid.matches_eq hnone hr]
        exact decide_eq_true hkey
      rw [hkeep]
      rfl
  · simp only [hadd, false_and, if_false]
    rfl

end Search

theorem keyFilesLoop_isSome {arrow : Arrow σ} {m : KeyMatcher σ}
    {read : ByteString → Option (DataTable σ ρ)} {created : List (ByteString × FileStats)}
    {readExact : Bool} {skipUpdate : Option ℕ} {candidates : List (ByteString × KeyMatch)}
    (hread : ∀ candidate ∈ candidates, ∃ data, read candidate.1 = some data) :
    ∃ files, keyFilesLoop arrow m read created readExact skipUpdate candidates = some files := by
  induction candidates with
  | nil => exact ⟨[], rfl⟩
  | cons candidate candidates ih =>
    obtain ⟨path, found⟩ := candidate
    obtain ⟨rest, hrest⟩ := ih fun candidate h ↦ hread candidate (List.mem_cons_of_mem _ h)
    obtain ⟨data, hdata⟩ := hread _ List.mem_cons_self
    rw [keyFilesLoop]
    simp only [hrest, hdata, Option.map_some]
    split_ifs <;> exact ⟨_, rfl⟩

/-- A search with `read_exact` that succeeds, entry by entry. -/
theorem search_works (key : ByteString) (hworks : out.Works) (h : st.Sound out)
    (hcol : st.table.firstColumn = some c) :
    ∃ files, findKeyFiles out.arrow (st.readDataFile out) st.table key true none = some files ∧
      files = (st.table.deltaLog.files.filterMap fun e ↦
        keyFileAt out.arrow c key true st.table.createdFiles none
          (st.table.deltaLog.basePath ++ e.1) (st.content (st.table.deltaLog.basePath ++ e.1))
          e.2) ∧
      FoundFiles st files := by
  have hread : ∀ path, ∀ data ∈ st.readDataFile out path, data = st.content path := fun _ _ ↦
    State.readDataFile_content
  have hstored : ∀ candidate ∈ st.table.candidates out.arrow c key,
      ∃ data, st.readDataFile out candidate.1 = some data := by
    intro candidate hcandidate
    obtain ⟨q, e, hq, hpath⟩ := mem_candidates hcandidate
    obtain ⟨data, hdata⟩ := h.stored q e hq
    refine ⟨data, ?_⟩
    rw [State.readDataFile, if_pos (hworks.canRead _), hpath, hdata]
  have hloop : ∃ files, keyFilesLoop out.arrow (KeyMatcher.make out.arrow c.type key)
      (st.readDataFile out) st.table.createdFiles true none
      (st.table.candidates out.arrow c key) = some files := keyFilesLoop_isSome hstored
  rw [← findKeyFiles_of_firstColumn hcol] at hloop
  obtain ⟨files, hfiles⟩ := hloop
  have heq := findKeyFiles_eq hcol hread hfiles
  refine ⟨files, hfiles, heq, ?_, nodup_findKeyFiles hcol hread hfiles, ?_⟩
  · intro f hf
    rw [heq] at hf
    obtain ⟨e, he, hf⟩ := List.mem_filterMap.mp hf
    obtain ⟨hadd, hpath⟩ := keyFileAt_eq_some hf
    exact ⟨e.1, e.2, ⟨he, hadd⟩, hpath⟩
  · intro f hf
    rw [heq] at hf
    obtain ⟨e, -, hf⟩ := List.mem_filterMap.mp hf
    rw [keyFileAt_read] at hf
    split_ifs at hf
    obtain rfl := Option.some.inj hf
    rfl

/-! ### Its rows -/

section Found

variable {files : List (KeyFile σ ρ)}

/-- The found files lose the rows of the key, and nothing else. -/
theorem search_balance (hvalid : st.table.Valid out.arrow c st.content)
    (hfiles : files = st.table.deltaLog.files.filterMap fun e ↦
      keyFileAt out.arrow c key true st.table.createdFiles none
        (st.table.deltaLog.basePath ++ e.1) (st.content (st.table.deltaLog.basePath ++ e.1)) e.2) :
    st.liveRows + (files.map fun f ↦ (↑f.keptRows : Multiset (Row σ ρ))).sum =
      (st.liveRows.filter fun r ↦ ¬r.HasKey out.arrow c key) +
        (files.map fun f ↦ (↑(st.content f.path).rows : Multiset (Row σ ρ))).sum := by
  have hothers : (st.liveRows.filter fun r ↦ ¬r.HasKey out.arrow c key) =
      (st.table.deltaLog.files.map fun e ↦
        if e.2.operation = .add then
          (↑((st.content (st.table.deltaLog.basePath ++ e.1)).rows.filter fun r ↦
            ¬r.HasKey out.arrow c key) : Multiset (Row σ ρ))
        else 0).sum := by
    rw [State.liveRows, Multiset.filter_coe, DeltaLogManager.liveRows, List.filter_flatMap,
      coe_flatMap]
    congr 1
    apply List.map_congr_left
    intro e he
    split <;> rfl
  subst hfiles
  rw [hothers, State.liveRows, coe_liveRows, sum_filterMap, sum_filterMap, ← List.sum_map_add,
    ← List.sum_map_add]
  congr 1
  apply List.map_congr_left
  intro e he
  have hpath : ∀ f ∈ (keyFileAt out.arrow c key true st.table.createdFiles none
      (st.table.deltaLog.basePath ++ e.1) (st.content (st.table.deltaLog.basePath ++ e.1))
      e.2).toList,
      (↑(st.content f.path).rows : Multiset (Row σ ρ)) =
        ↑(st.content (st.table.deltaLog.basePath ++ e.1)).rows := by
    intro f hf
    rw [(keyFileAt_eq_some (Option.mem_toList.mp hf)).2]
  rw [List.map_congr_left hpath, entryRows]
  exact keyFileAt_read_balance fun hadd ↦ hvalid e.1 e.2 ⟨he, hadd⟩

/-- What the found files hold of the key. -/
theorem search_foundRows
    (hvalid : st.table.Valid out.arrow c st.content)
    (hfiles : files = st.table.deltaLog.files.filterMap fun e ↦
      keyFileAt out.arrow c key true st.table.createdFiles none
        (st.table.deltaLog.basePath ++ e.1) (st.content (st.table.deltaLog.basePath ++ e.1)) e.2) :
    foundRows files =
      (st.table.deltaLog.liveRows st.content).filter (·.HasKey out.arrow c key) := by
  rw [foundRows, keyRows_rows, hfiles, liveRows_filter, List.filterMap_eq_flatMap_toList,
    List.flatMap_assoc]
  exact List.flatMap_congr fun e he ↦
    keyFileAt_rows (fun hadd ↦ hvalid e.1 e.2 ⟨he, hadd⟩) (by simp)

/-- A removal of found files leaves fewer rows, if any file was found. -/
theorem removeLoop_found (hworks : out.Works) (h : st.Sound out) (hfound : FoundFiles st files)
    (hfiles : files = st.table.deltaLog.files.filterMap fun e ↦
      keyFileAt out.arrow c key true st.table.createdFiles none
        (st.table.deltaLog.basePath ++ e.1) (st.content (st.table.deltaLog.basePath ++ e.1)) e.2)
    (hloop : removeLoop out files st = (true, st')) :
    st'.liveRows = st.liveRows ↔ files = [] := by
  have hrows := removeLoop_rows hworks.keepsRows h.fresh hfound.live hfound.nodup hloop
  constructor
  · intro heq
    rw [heq] at hrows
    have hcard := congrArg Multiset.card (add_left_cancel hrows)
    by_contra hne
    have hlt : ∀ f ∈ files, f.keptRows.length < (st.content f.path).rows.length := by
      intro f hf
      rw [hfiles] at hf
      obtain ⟨e, -, hf⟩ := List.mem_filterMap.mp hf
      rw [(keyFileAt_eq_some hf).2]
      exact keptRows_length_lt hf
    have hsum : ∀ g : KeyFile σ ρ → List (Row σ ρ),
        Multiset.card (files.map fun f ↦ (↑(g f) : Multiset (Row σ ρ))).sum =
          (files.map fun f ↦ (g f).length).sum := by
      intro g
      rw [← Multiset.cardHom_apply, map_list_sum, List.map_map]
      rfl
    rw [hsum, hsum] at hcard
    have hsums := List.sum_lt_sum (l := files) (fun f ↦ f.keptRows.length)
      (fun f ↦ (st.content f.path).rows.length) (fun f hf ↦ (hlt f hf).le) ?_
    · omega
    · obtain ⟨f, files', rfl⟩ := List.exists_cons_of_ne_nil hne
      exact ⟨f, List.mem_cons_self, hlt f List.mem_cons_self⟩
  · rintro rfl
    obtain ⟨-, rfl⟩ := Prod.mk.inj hloop
    rfl

end Found

end LakeVilla.Keys
