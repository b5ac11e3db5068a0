import LakeVilla.Keys.Committed

/-!
# Runs of a removal by key

What one found file does to the rows, the names and the files of the commit, and from it what the
whole loop does.
-/

namespace LakeVilla.Keys

variable {σ ρ : Type} {out : Outside σ ρ} {st st' : State σ ρ}

namespace State

/-- What the data files hold. -/
def content (st : State σ ρ) (path : ByteString) : DataTable σ ρ := (st.stored path).getD ⟨[]⟩

/-- The live rows of the transaction's snapshot. -/
def liveRows (st : State σ ρ) : Multiset (Row σ ρ) := ↑(st.table.deltaLog.liveRows st.content)

/-- The names of new files that will be asked for are different, and not in the snapshot. -/
structure FreshNames (out : Outside σ ρ) (st : State σ ρ) : Prop where
  notLogged : ∀ n, st.asked ≤ n → st.table.deltaLog.files.lookup (out.newName n) = none
  injective : ∀ m n, st.asked ≤ m → st.asked ≤ n → out.newName m = out.newName n → m = n

end State

/-- `conform_for_write` returns the rows it is given. -/
def Outside.KeepsRows (out : Outside σ ρ) : Prop :=
  ∀ t t', out.conform t = some t' → t'.rows = t.rows

/-! ## One file -/

/-- What a removal of a file leaves as it is, and what it does to the rows. -/
structure RemovedFile (out : Outside σ ρ) (f : KeyFile σ ρ) (p : ByteString) (st st' : State σ ρ) :
    Prop where
  rows : st'.liveRows + ↑(st.content f.path).rows = st.liveRows + ↑f.keptRows
  basePath : st'.table.deltaLog.basePath = st.table.deltaLog.basePath
  fresh : st'.FreshNames out
  live : ∀ q e, q ≠ p → st.table.deltaLog.Live q e → st'.table.deltaLog.Live q e
  content : ∀ q e, st.table.deltaLog.Live q e →
    st'.content (st.table.deltaLog.basePath ++ q) = st.content (st.table.deltaLog.basePath ++ q)
  agrees : ∀ version, st.table.deltaLog.basePath ≠ [] → st.table.Agrees version →
    st'.table.Agrees version

theorem rest_rows {f : KeyFile σ ρ} {rest : DataTable σ ρ} (hkeeps : out.KeepsRows)
    (hall : f.allRows = false) (h : f.rest out = some rest) : rest.rows = f.keptRows := by
  obtain ⟨data, hdata, hconform⟩ := Option.bind_eq_some_iff.mp h
  rw [hkeeps _ _ hconform, KeyFile.keptRows, hall, hdata]
  rfl

theorem State.FreshNames.ne_live (hfresh : st.FreshNames out) {n : ℕ} (hn : st.asked ≤ n)
    {q : ByteString} {e : DeltaLogEntry} (hq : st.table.deltaLog.Live q e) : q ≠ out.newName n := by
  rintro rfl
  cases (hfresh.notLogged n hn).symm.trans (DeltaLogManager.live_iff_lookup.mp hq).1

/-! ### A new file -/

theorem State.content_create (out : Outside σ ρ) (st : State σ ρ) (rows : DataTable σ ρ) :
    (st.create out rows).content (st.newDataFilePath out st.asked) = rows := by
  simp only [content, create, Function.update_self, Option.getD_some]

theorem State.FreshNames.content_create_of_live (h : st.FreshNames out) {rows : DataTable σ ρ}
    {q : ByteString} {e : DeltaLogEntry} (hq : st.table.deltaLog.Live q e) :
    (st.create out rows).content (st.table.deltaLog.basePath ++ q) =
      st.content (st.table.deltaLog.basePath ++ q) := by
  have hne : st.table.deltaLog.basePath ++ q ≠ st.newDataFilePath out st.asked := fun hpath ↦
    h.ne_live le_rfl hq (List.append_cancel_left hpath)
  simp only [content, create, Function.update_of_ne hne]

theorem State.FreshNames.create (h : st.FreshNames out) (rows : DataTable σ ρ) :
    (st.create out rows).FreshNames out where
  notLogged n hn := by
    have hlt : st.asked < n := hn
    refine (DeltaLogManager.lookup_registerOperation_of_ne ?_).trans (h.notLogged n hlt.le)
    intro hname
    rw [TableStats.noteCreated] at hname
    exact hlt.ne' (h.injective n st.asked hlt.le le_rfl
      (hname.trans (DeltaLogManager.relative_append _ _)))
  injective m n hm hn := by
    have hm' : st.asked < m := hm
    have hn' : st.asked < n := hn
    exact h.injective m n hm'.le hn'.le

theorem State.FreshNames.agrees_create (h : st.FreshNames out) (rows : DataTable σ ρ)
    (hbase : st.table.deltaLog.basePath ≠ []) {version : Finset ByteString}
    (hversion : st.table.Agrees version) : (st.create out rows).table.Agrees version := by
  have hne : st.newDataFilePath out st.asked ≠ [] := List.append_ne_nil_of_left_ne_nil hbase _
  have hcommitted : (st.create out rows).table.committedFiles version =
      insert (st.newDataFilePath out st.asked) (st.table.committedFiles version) :=
    committedFiles_registerCreated hne rfl
  have hlive : (st.create out rows).table.deltaLog.liveFiles =
      insert (st.newDataFilePath out st.asked) st.table.deltaLog.liveFiles :=
    liveFiles_registerAdd (h.notLogged st.asked le_rfl) rfl rfl
  rw [TableStats.Agrees, hcommitted, hversion, hlive]

theorem State.FreshNames.liveRows_create (h : st.FreshNames out) (rows : DataTable σ ρ) :
    (st.create out rows).liveRows = st.liveRows + ↑rows.rows := by
  have hadd : (st.create out rows).liveRows =
      ↑(st.table.deltaLog.liveRows (st.create out rows).content) +
        ↑((st.create out rows).content (st.newDataFilePath out st.asked)).rows :=
    liveRows_registerAdd (h.notLogged st.asked le_rfl) rfl rfl
  have hothers : st.table.deltaLog.liveRows (st.create out rows).content =
      st.table.deltaLog.liveRows st.content :=
    liveRows_congr fun q e hq ↦ h.content_create_of_live hq
  rw [hadd, hothers, State.content_create]
  rfl

/-! ### A removed file -/

section Drop

variable {f : KeyFile σ ρ} {p q : ByteString} {e e' : DeltaLogEntry}

theorem live_drop_of_ne (hpath : f.path = st.table.deltaLog.basePath ++ p) (hne : q ≠ p) :
    (st.drop f).table.deltaLog.Live q e' ↔ st.table.deltaLog.Live q e' := by
  refine DeltaLogManager.live_registerOperation_of_ne ?_
  rw [hpath]
  exact fun h ↦ hne (h.trans (DeltaLogManager.relative_append _ _))

theorem State.FreshNames.drop (h : st.FreshNames out) (hlive : st.table.deltaLog.Live p e)
    (hpath : f.path = st.table.deltaLog.basePath ++ p) : (st.drop f).FreshNames out where
  notLogged n hn := by
    refine (DeltaLogManager.lookup_registerOperation_of_ne ?_).trans (h.notLogged n hn)
    rw [hpath]
    exact fun h' ↦ h.ne_live hn hlive (h'.trans (DeltaLogManager.relative_append _ _)).symm
  injective := h.injective

theorem agrees_drop (hlive : st.table.deltaLog.Live p e)
    (hpath : f.path = st.table.deltaLog.basePath ++ p) (hbase : st.table.deltaLog.basePath ≠ [])
    {version : Finset ByteString} (hversion : st.table.Agrees version) :
    (st.drop f).table.Agrees version := by
  have hne : f.path ≠ [] := hpath ▸ List.append_ne_nil_of_left_ne_nil hbase p
  exact (committedFiles_registerDeleted hne).trans
    ((congrArg (Finset.erase · f.path) hversion).trans (liveFiles_registerDelete hlive hpath).symm)

theorem removedFile_drop (hfresh : st.FreshNames out) (hlive : st.table.deltaLog.Live p e)
    (hpath : f.path = st.table.deltaLog.basePath ++ p) (hall : f.allRows = true) :
    RemovedFile out f p st (st.drop f) where
  rows := by
    rw [KeyFile.keptRows, if_pos hall, Multiset.coe_nil, add_zero]
    exact liveRows_registerDelete hlive hpath
  basePath := rfl
  fresh := hfresh.drop hlive hpath
  live q e' hne hq := (live_drop_of_ne hpath hne).mpr hq
  content _ _ _ := rfl
  agrees _ hbase hversion := agrees_drop hlive hpath hbase hversion

/-- The file is removed after the new one was created. -/
theorem removedFile_rewrite {rest : DataTable σ ρ} (hfresh : st.FreshNames out)
    (hlive : st.table.deltaLog.Live p e) (hpath : f.path = st.table.deltaLog.basePath ++ p)
    (hrest : rest.rows = f.keptRows) : RemovedFile out f p st (st.rewrite out f rest) where
  rows := by
    have hdelete : ((st.create out rest).drop f).liveRows +
        ↑((st.create out rest).content f.path).rows = (st.create out rest).liveRows :=
      liveRows_registerDelete hlive.registerAdd hpath
    rw [hpath, hfresh.content_create_of_live hlive, ← hpath, hfresh.liveRows_create, hrest]
      at hdelete
    exact hdelete
  basePath := rfl
  fresh := (hfresh.create rest).drop hlive.registerAdd hpath
  live q e' hne hq := by
    have hpath' : f.path = (st.create out rest).table.deltaLog.basePath ++ p := hpath
    exact (live_drop_of_ne hpath' hne).mpr hq.registerAdd
  content _ _ hq := hfresh.content_create_of_live hq
  agrees _ hbase hversion := by
    have hpath' : f.path = (st.create out rest).table.deltaLog.basePath ++ p := hpath
    exact agrees_drop hlive.registerAdd hpath' hbase (hfresh.agrees_create rest hbase hversion)

end Drop

theorem removedFile_of_true {f : KeyFile σ ρ} {p : ByteString} {e : DeltaLogEntry}
    (hkeeps : out.KeepsRows) (hfresh : st.FreshNames out) (hlive : st.table.deltaLog.Live p e)
    (hpath : f.path = st.table.deltaLog.basePath ++ p)
    (h : removeKeyRows out st f = (true, st')) : RemovedFile out f p st st' := by
  rcases removeKeyRows_cases out st f with ⟨hall, hf⟩ | ⟨hall, rest, hrest, -, hf⟩ | ⟨-, asked, hf⟩
  · obtain ⟨-, rfl⟩ := Prod.mk.inj (hf.symm.trans h)
    exact removedFile_drop hfresh hlive hpath hall
  · obtain ⟨-, rfl⟩ := Prod.mk.inj (hf.symm.trans h)
    exact removedFile_rewrite hfresh hlive hpath (rest_rows hkeeps hall hrest)
  · cases hf.symm.trans h

/-! ## All found files -/

/-- The files that come later are still live. -/
theorem RemovedFile.live_later {f : KeyFile σ ρ} {files : List (KeyFile σ ρ)} {p : ByteString}
    (h : RemovedFile out f p st st') (hpath : f.path = st.table.deltaLog.basePath ++ p)
    (hlive : ∀ g ∈ files, ∃ q e, st.table.deltaLog.Live q e ∧
      g.path = st.table.deltaLog.basePath ++ q)
    (hnot : f.path ∉ files.map (·.path)) :
    ∀ g ∈ files, ∃ q e, st'.table.deltaLog.Live q e ∧
      g.path = st'.table.deltaLog.basePath ++ q := by
  intro g hg
  obtain ⟨q, e, hq, hgpath⟩ := hlive g hg
  refine ⟨q, e, h.live q e ?_ hq, h.basePath ▸ hgpath⟩
  rintro rfl
  exact hnot (List.mem_map.mpr ⟨g, hg, hgpath.trans hpath.symm⟩)

/-- A removal that succeeds replaces the rows of the found files by what is kept of them. -/
theorem removeLoop_rows {files : List (KeyFile σ ρ)} (hkeeps : out.KeepsRows)
    (hfresh : st.FreshNames out)
    (hlive : ∀ f ∈ files, ∃ p e, st.table.deltaLog.Live p e ∧
      f.path = st.table.deltaLog.basePath ++ p)
    (hnodup : (files.map (·.path)).Nodup) (h : removeLoop out files st = (true, st')) :
    st'.liveRows + (files.map fun f ↦ (↑(st.content f.path).rows : Multiset (Row σ ρ))).sum =
      st.liveRows + (files.map fun f ↦ (↑f.keptRows : Multiset (Row σ ρ))).sum := by
  induction files generalizing st with
  | nil =>
    obtain ⟨-, rfl⟩ := Prod.mk.inj h
    rfl
  | cons f files ih =>
    obtain ⟨p, e, hf, hpath⟩ := hlive f List.mem_cons_self
    rw [List.map_cons, List.nodup_cons] at hnodup
    rw [removeLoop] at h
    cases hstep : removeKeyRows out st f with
    | mk ok st₁ =>
    rw [hstep] at h
    cases ok with
    | false => cases h
    | true =>
      have hremoved := removedFile_of_true hkeeps hfresh hf hpath hstep
      have hcontent : ∀ g ∈ files, st₁.content g.path = st.content g.path := by
        intro g hg
        obtain ⟨q, e', hq, hgpath⟩ := hlive g (List.mem_cons_of_mem _ hg)
        rw [hgpath, hremoved.content q e' hq]
      have hlive₁ := hremoved.live_later hpath (fun g hg ↦ hlive g (List.mem_cons_of_mem _ hg))
        hnodup.1
      have hrest := ih hremoved.fresh hlive₁ hnodup.2 h
      rw [List.map_congr_left fun g hg ↦ by rw [hcontent g hg]] at hrest
      rw [List.map_cons, List.map_cons, List.sum_cons, List.sum_cons]
      calc st'.liveRows + (↑(st.content f.path).rows +
              (files.map fun g ↦ (↑(st.content g.path).rows : Multiset (Row σ ρ))).sum)
          = st'.liveRows + (files.map fun g ↦ (↑(st.content g.path).rows : Multiset (Row σ ρ))).sum
              + ↑(st.content f.path).rows := by rw [← add_assoc, add_right_comm]
        _ = st₁.liveRows + ↑(st.content f.path).rows +
              (files.map fun g ↦ (↑g.keptRows : Multiset (Row σ ρ))).sum := by
            rw [hrest, add_right_comm]
        _ = st.liveRows + (↑f.keptRows +
              (files.map fun g ↦ (↑g.keptRows : Multiset (Row σ ρ))).sum) := by
            rw [hremoved.rows, add_assoc]

/-- A removal keeps commit and snapshot together. -/
theorem removeLoop_agrees {files : List (KeyFile σ ρ)} {version : Finset ByteString}
    (hkeeps : out.KeepsRows) (hfresh : st.FreshNames out)
    (hlive : ∀ f ∈ files, ∃ p e, st.table.deltaLog.Live p e ∧
      f.path = st.table.deltaLog.basePath ++ p)
    (hnodup : (files.map (·.path)).Nodup) (hbase : st.table.deltaLog.basePath ≠ [])
    (hagrees : st.table.Agrees version) (h : removeLoop out files st = (true, st')) :
    st'.table.Agrees version := by
  induction files generalizing st with
  | nil =>
    obtain ⟨-, rfl⟩ := Prod.mk.inj h
    exact hagrees
  | cons f files ih =>
    obtain ⟨p, e, hf, hpath⟩ := hlive f List.mem_cons_self
    rw [List.map_cons, List.nodup_cons] at hnodup
    rw [removeLoop] at h
    cases hstep : removeKeyRows out st f with
    | mk ok st₁ =>
    rw [hstep] at h
    cases ok with
    | false => cases h
    | true =>
      have hremoved := removedFile_of_true hkeeps hfresh hf hpath hstep
      have hlive₁ := hremoved.live_later hpath (fun g hg ↦ hlive g (List.mem_cons_of_mem _ hg))
        hnodup.1
      exact ih hremoved.fresh hlive₁ hnodup.2 (hremoved.basePath ▸ hbase)
        (hremoved.agrees version hbase hagrees) h

theorem filterMap_sublist_map {α β : Type} {g : α → Option β} {h : α → β}
    (hg : ∀ a b, g a = some b → b = h a) (l : List α) : (l.filterMap g).Sublist (l.map h) := by
  induction l with
  | nil => exact .slnil
  | cons a l ih =>
    rw [List.filterMap_cons, List.map_cons]
    cases ha : g a with
    | none => exact ih.cons _
    | some b => exact hg a b ha ▸ ih.cons_cons b

/-- Every file is found once. -/
theorem nodup_findKeyFiles {files : List (KeyFile σ ρ)} {tbl : TableStats} {c : KeyColumn}
    {arrow : Arrow σ} {read : ByteString → Option (DataTable σ ρ)}
    {content : ByteString → DataTable σ ρ} {key : ByteString} {readExact : Bool} {prev : Option ℕ}
    (hcol : tbl.firstColumn = some c) (hread : ∀ path, ∀ data ∈ read path, data = content path)
    (h : findKeyFiles arrow read tbl key readExact prev = some files) :
    (files.map (·.path)).Nodup := by
  rw [findKeyFiles_eq hcol hread h, List.map_filterMap]
  have hpaths : (tbl.deltaLog.files.map fun e ↦ tbl.deltaLog.basePath ++ e.1).Nodup := by
    rw [← Function.comp_def, ← List.map_map]
    exact tbl.deltaLog.nodup.map (List.append_right_injective _)
  refine hpaths.sublist (filterMap_sublist_map (fun e path he ↦ ?_) _)
  obtain ⟨f, hf, rfl⟩ := Option.map_eq_some_iff.mp he
  exact (keyFileAt_eq_some hf).2

theorem State.readDataFile_content {path : ByteString} {data : DataTable σ ρ}
    (h : data ∈ st.readDataFile out path) : data = st.content path := by
  unfold State.readDataFile at h
  split at h
  · rw [State.content, Option.mem_def.mp h, Option.getD_some]
  · cases h

/-- A removal that succeeds has run through the files that were found. -/
theorem removeFile_ok {key : ByteString} {prev : Option ℕ}
    (hok : (removeFile out true st key prev).ok = true) :
    ∃ files, findKeyFiles out.arrow (st.readDataFile out) st.table key false prev = some files ∧
      removeLoop out files st = (true, (removeFile out true st key prev).state) := by
  unfold removeFile at hok ⊢
  cases hfind : findKeyFiles out.arrow (st.readDataFile out) st.table key false prev with
  | none =>
    rw [hfind] at hok
    cases hok
  | some found =>
    rw [hfind] at hok
    cases found with
    | nil => cases hok
    | cons f files => exact ⟨f :: files, rfl, Prod.ext hok rfl⟩

/-- The rows after a removal and the rows that it loses are those that should survive. -/
theorem removeFile_rows {c : KeyColumn} {key : ByteString} {prev : Option ℕ}
    (hcol : st.table.firstColumn = some c) (hvalid : st.table.Valid out.arrow c st.content)
    (hfresh : st.FreshNames out) (hkeeps : out.KeepsRows)
    (hok : (removeFile out true st key prev).ok = true) :
    (removeFile out true st key prev).state.liveRows +
        ↑(st.table.lostRows out.arrow c key prev st.content) =
      ↑(st.table.survivors out.arrow c key prev st.content) := by
  obtain ⟨files, hfind, hloop⟩ := removeFile_ok hok
  have hread : ∀ path, ∀ data ∈ st.readDataFile out path, data = st.content path := fun _ _ ↦
    State.readDataFile_content
  have hrun := removeLoop_rows hkeeps hfresh (fun g hg ↦ findKeyFiles_live hfind hg)
    (nodup_findKeyFiles hcol hread hfind) hloop
  have hbalance := liveRows_balance hvalid (findKeyFiles_eq hcol hread hfind)
  apply add_right_cancel (b := (files.map fun f ↦
    (↑(st.content f.path).rows : Multiset (Row σ ρ))).sum)
  rw [← hbalance, add_right_comm, hrun]
  rfl

theorem removeFile_agrees {c : KeyColumn} {key : ByteString} {prev : Option ℕ}
    {version : Finset ByteString} (hcol : st.table.firstColumn = some c)
    (hfresh : st.FreshNames out) (hkeeps : out.KeepsRows)
    (hbase : st.table.deltaLog.basePath ≠ []) (hagrees : st.table.Agrees version)
    (hok : (removeFile out true st key prev).ok = true) :
    (removeFile out true st key prev).state.table.Agrees version := by
  obtain ⟨files, hfind, hloop⟩ := removeFile_ok hok
  have hread : ∀ path, ∀ data ∈ st.readDataFile out path, data = st.content path := fun _ _ ↦
    State.readDataFile_content
  exact removeLoop_agrees hkeeps hfresh (fun g hg ↦ findKeyFiles_live hfind hg)
    (nodup_findKeyFiles hcol hread hfind) hbase hagrees hloop

end LakeVilla.Keys
