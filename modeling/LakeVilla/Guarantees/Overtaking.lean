import LakeVilla.Guarantees.Fencing
import LakeVilla.Guarantees.Once

/-!
# Commits do not overtake running markers

Before it writes version `v`, a transaction with markers waits for every version below it that held
a running marker. The wait takes a failed check, and a read without data, for a version that does
not exist; then the commit overtakes the marker. While the requests about the awaited version are
answered, all versions below `v` are final, and their commits were merged and checked.
-/

namespace LakeVilla

open Concurrency

/-- The changes of table `tbl` do not conflict with a commit of the actions `as`. -/
def Compatible (t : Txn) (tbl : TableStats) (as : List Action) : Prop :=
  (∀ e ∈ tbl.validDeleted, e.1 ∉ Action.removed as) ∧
    (t.cfg.options.isolation = .serializable → tbl.wasRead = true → as = [])

/-- Version `v` of table `p` may be written by client `i`: no version below it holds the running
marker of another client, and the commits below it are in the snapshot, either since the operations
were executed or without a conflict. -/
structure InOrder (i : TxnId) (t : Txn) (p : Table) (v : ℕ) (s : Store) : Prop where
  markers : ∀ u < v, ∀ o j d, s.get (.version p u) = some o → o.content = .marker j d → j = i
  commits : ∃ tbl ∈ t.tables, tbl.basePath = p ∧ tbl.markerVersion = v ∧
    ∀ u < v, ∀ as, s.log p u = some as → as = [] ∨
      u ∈ tbl.deltaLog.versions ∧ (u ∈ tbl.base ∨ Compatible t tbl as)

theorem Txn.compatible {t : Txn} {tbl : TableStats} {as : List Action} (hc : t.conflict = false)
    (htbl : tbl ∈ t.tables) (hr : Action.removed as ⊆ tbl.concurrentRemoves)
    (ha : as = [] ∨ tbl.concurrentChange = true) : Compatible t tbl as := by
  have hw : t.hasWriteConflict = false := by
    unfold Txn.conflict at hc
    split at hc
    · exact (Bool.or_eq_false_iff.mp hc).2
    · exact hc
  refine ⟨fun e he hmem ↦ ?_, fun hs hread ↦ ha.resolve_right fun hch ↦ ?_⟩
  · rw [Txn.hasWriteConflict, List.any_eq_false] at hw
    refine hw tbl htbl (List.any_eq_true.mpr ⟨e, he, ?_⟩)
    simpa using hr hmem
  · rw [Txn.conflict, hs] at hc
    have hread' := (Bool.or_eq_false_iff.mp hc).1
    rw [Txn.hasReadConflict, List.any_eq_false] at hread'
    exact hread' tbl htbl (by simp [hread, hch])

/-- Writes are answered. -/
def WriteAnswered : (k : Call) → Response k → Prop
  | .write _ _, r => r = true
  | .writeAtomic _ _, r => r.1 ≠ .error
  | .writeIfMatch _ _ _, r => r ≠ .error
  | _, _ => True

/-- The requests about the version that a commit waits for do not fail. -/
def WaitAnswered (t : Txn) (s' : Store) : (k : Call) → Response k → Prop
  | .check (.version p v), r => t.waiting = some (p, v) → r = (s'.get (.version p v)).isSome
  | .read (.version p v), r => t.waiting = some (p, v) → r = s'.get (.version p v)
  | _, _ => True

/-- What keeps a commit from overtaking a marker: checks and reads of awaited versions do not fail;
the operations are covered by the conflict detection when a table is written, and with sublogs no
write fails after another table was written. -/
structure OrderedStep (party : TxnId → Party) (i : TxnId) (t : Txn) (k : Call) (r : Response k)
    (s' : Store) : Prop where
  wait : WaitAnswered t s' k r
  covered : k.isCommit = true → t.hazards = [] ∧ t.Distinct
  firm : (party i).l0 = true → k.isCommit = true → t.torn = true → k.succeeded r = true

/-- The runs with failing checks and reads in which commits are in order. -/
abbrev orderedSem (party : TxnId → Party) : Semantics TxnId Txn Response Store :=
  Meeting (served true) fun i t k _ r s' ↦ WriteAnswered k r ∧ OrderedStep party i t k r s'

/-- Transactions with markers write their versions in order. -/
def ordered : Protocol TxnId Txn Response Store where
  inv := Store.WF
  guar i t k s _ s' := Fenced i s s' ∧ (t.markers = true → k.isCommit = true →
    ∀ p v as, s'.Holds i p v as → ¬ s.Holds i p v as → InOrder i t p v s)

section Runs

variable {fuel : ℕ} {party : TxnId → Party} {s : Store} {w : System} {i : TxnId} {c : Config}
variable {p : Table}

theorem Store.holds_of_journal {s s' : Store} {i : TxnId} {p : Table} {v : ℕ} {as : List Action}
    (h : s'.journal = s.journal) (hv : s'.Holds i p v as) : s.Holds i p v as := by
  obtain ⟨o, c, ho, hrest⟩ := hv
  refine ⟨o, c, ?_, hrest⟩
  rwa [Store.get, ← h]

theorem ordered_loose (party : TxnId → Party) : Loose (orderedSem party) ordered :=
  .ofServed (fun h ↦ served_answer h.1) id And.left fun _ _ hwf hf _ hj ↦
    ⟨hwf, hf, fun _ hk _ _ _ hv hn ↦ absurd (Store.holds_of_journal (hj hk) hv) hn⟩

theorem orderedSem_regular (hp : party i = .lakeVilla c p) (hm : c.levels.markers = true) :
    Regular (orderedSem party) i c where
  write h := h.2.1
  writeAtomic h := h.2.1
  writeIfMatch h := h.2.1
  check h hw := h.2.2.wait (hw.resolve_left (by simp [hm]))
  read h hw := h.2.2.wait (hw.resolve_left (by simp [hm]))
  firm hl m k s r s' h hk ht := h.2.2.firm (by rw [hp]; exact hl) hk ht

/-- Every version below a ready table's is in the snapshot or holds an empty commit. -/
theorem Ready.caught {sem : Semantics TxnId Txn Response Store}
    {P : Protocol TxnId Txn Response Store} {L : Bool → Txn → Store → Prop} {b : Bool} {t : Txn}
    {s : Store} {j : ℕ} {tbl : TableStats} (hr : Ready sem P i c L b t s j tbl)
    (hreg : Regular sem i c) (hu : t.Usable) (hm : t.markers = true) :
    ∀ u < tbl.markerVersion, u ∈ tbl.deltaLog.versions ∨ s.log tbl.basePath u = some [] := by
  intro u hlt
  have htbl := List.mem_of_getElem? hr.table
  rcases hr.clear.caught hreg hu tbl htbl u hlt with (h | h | h) | h
  · exact .inl h
  · cases h
  · exact absurd hm (by simp [h.1])
  · exact .inr h

theorem Ready.inOrder {sem : Semantics TxnId Txn Response Store}
    {P : Protocol TxnId Txn Response Store} {L : Bool → Txn → Store → Prop} {b : Bool} {t : Txn}
    {s : Store} {j : ℕ} {tbl : TableStats} (hr : Ready sem P i c L b t s j tbl)
    (hreg : Regular sem i c) (hh : t.hazards = []) (hd : t.Distinct) (hm : t.markers = true) :
    InOrder i t tbl.basePath tbl.markerVersion s := by
  have hu : t.Usable := ⟨hd, by simp [hh]⟩
  have htbl := List.mem_of_getElem? hr.table
  have ht := hr.known.tracks hreg hu j tbl hr.table (by simp)
  have hcaught := hr.caught hreg hu hm
  refine ⟨fun u hlt o k d ho hc ↦ ?_, tbl, htbl, rfl, rfl, fun u hlt as has ↦ ?_⟩
  · -- every version below the reserved one holds a commit
    have hnone : s.log tbl.basePath u = none := by
      obtain ⟨content, e, ms⟩ := o
      obtain rfl : content = .marker k d := hc
      rw [Store.log, ho]
    rcases hcaught u hlt with h | h
    · obtain ⟨as, has⟩ := ht.logged u h
      rw [hnone] at has
      cases has
    · rw [hnone] at h
      cases h
  · rcases hcaught u hlt with h | h
    · refine .inr ⟨h, (ht.checked hh u h).imp_right fun hc ↦ ?_⟩
      obtain ⟨h₁, h₂⟩ := hc as has
      exact Txn.compatible hr.clear.conflict htbl h₁ h₂
    · exact .inl (Option.some.inj (has.symm.trans h))

theorem ordered_committing (hp : party i = .lakeVilla c p) :
    Committing (orderedSem party) ordered i c fun _ _ _ ↦ True where
  commit {b t k s₀ r s' ms j tbl} hi hsem hk hr hc hwf hf := by
    refine ⟨hwf, hf.of_wait, fun hm _ q v as hv hn ↦ ?_⟩
    obtain ⟨hh, hd⟩ := hsem.2.2.covered hk
    have hmc : c.levels.markers = true := by rw [← hr.known.cfg]; exact hm
    obtain ⟨rfl, rfl⟩ : q = tbl.basePath ∧ v = tbl.markerVersion := by
      by_contra hne
      refine hn ?_
      obtain ⟨o, cm, ho, hrest⟩ := hv
      refine ⟨o, cm, ?_, hrest⟩
      rw [hc.put, Store.get_put_of_ne] at ho
      · exact ho
      · simpa using hne
    have := hr.inOrder (orderedSem_regular hp hmc) hh hd hm
    exact ⟨this.markers, this.commits⟩

theorem Claims.holds {q : Table} {v : ℕ} {cm : Commit} {as : List Action} {q' : Table} {v' : ℕ}
    {s s' : Store} {ms : ℕ} (hc : Claims q v cm (s.wait ms) s') (h : s'.Holds i q' v' as) :
    s.Holds i q' v' as := by
  obtain ⟨o, cm', ho, hcm, hid, hrest⟩ := h
  rw [hc.put, Store.get_put] at ho
  split at ho
  · obtain rfl := Option.some.inj ho
    obtain rfl : cm = cm' := by simpa using hcm
    rw [hc.unsigned] at hid
    cases hid
  · exact ⟨o, cm', ho, hcm, hid, hrest⟩

theorem ordered_admitting (i : TxnId) : Admitting (orderedSem party) ordered i :=
  fun _ _ _ _ _ _ _ _ _ _ hc hwf hf ↦
    ⟨hwf, hf.of_wait, fun _ _ _ _ _ hv hn ↦ absurd (hc.holds hv) hn⟩

/-- **Commits are in order.** With markers, a step that writes a version as a commit overtakes no
running marker, and the commits below it were merged and checked. -/
theorem commits_in_order (hs : s.WF) (hu : ∀ i c p, party i = .lakeVilla c p → s.Unused i)
    (h : Reachable (orderedSem party) (System.initial fuel party s) w)
    {t : Txn} {k : Call} {f : Response k → Program Txn Response Result} {r : Response k}
    {s' : Store} (hi : w.client i = .call t k f) (hsem : orderedSem party i t k w.shared r s')
    (hm : t.markers = true) (hk : k.isCommit = true) :
    ∀ q v as, s'.Holds i q v as → ¬ w.shared.Holds i q v as → InOrder i t q v w.shared := by
  have hsafe : Safe (orderedSem party) ordered
      (Party.Ended (orderedSem party) (fun _ _ _ ↦ True) party) (System.initial fuel party s) :=
    (ordered_loose party).system (L := fun _ _ _ _ ↦ True)
      (fun i c p hp ↦ ⟨.trivial _ i, ordered_committing hp, trivial, hu i c p hp⟩)
      (fun i _ _ ↦ ordered_admitting i) hs
  exact ((hsafe.reachable h).act hi hsem).2.2.2.2 hm hk

/-- A call that is answered as without faults. -/
def answered (s' : Store) : (k : Call) → Response k → Bool
  | .check k, r => decide (r = (s'.get k).isSome)
  | .read k, r => decide (r = s'.get k)
  | .write _ _, r => r
  | .writeAtomic _ _, r => decide (r.1 ≠ .error)
  | .writeIfMatch _ _ _, r => decide (r ≠ .error)
  | _, _ => true

/-- The check of `OrderedStep`. -/
def orderedStep (_ : TxnId) (t : Txn) (k : Call) (_ : Store) (r : Response k) (s' : Store) : Bool :=
  answered s' k r && decide (t.hazards = []) && decide (t.tables.map (·.basePath)).Nodup &&
    (!k.isCommit || !t.torn || k.succeeded r)

theorem orderedStep_sound {i : TxnId} {t : Txn} {k : Call} {s s' : Store} {r : Response k}
    (h : orderedStep i t k s r s' = true) : WriteAnswered k r ∧ OrderedStep party i t k r s' := by
  simp only [orderedStep, Bool.and_eq_true, decide_eq_true_eq, Bool.or_eq_true,
    Bool.not_eq_true'] at h
  obtain ⟨⟨⟨ha, hh⟩, hd⟩, hf⟩ := h
  refine ⟨?_, ?_, fun _ ↦ ⟨hh, hd⟩, fun _ hk ht ↦ ?_⟩
  · cases k <;> simp_all [answered, WriteAnswered]
  · unfold WaitAnswered
    split
    · exact fun _ ↦ by simpa [answered] using ha
    · exact fun _ ↦ by simpa [answered] using ha
    · trivial
  · rcases hf with (h' | h') | h'
    · rw [hk] at h'
      cases h'
    · rw [ht] at h'
      cases h'
    · exact h'

/-- Client 1 has placed a marker when client 0 begins. -/
theorem commits_in_order_run : ∃ w t k f r s',
    Reachable (served true) (System.initial 20 fencedParty (.fresh [(0, [])])) w ∧
    w.client 0 = .call t k f ∧ served true 0 t k w.shared r s' ∧ k.isCommit = true ∧
    ∀ q v as, s'.Holds 0 q v as → ¬ w.shared.Holds 0 q v as → InOrder 0 t q v w.shared := by
  have hrun : ((System.runMeeting true orderedStep
      (System.initial 20 fencedParty (.fresh [(0, [])]))
      (steps 1 4 ++ steps 0 8 ++ asks 0 [.addRows 0 [] none, .commit false] ++ steps 1 2 ++
        asks 1 [.abort] ++ steps 1 1 ++ steps 0 4)).map fun w ↦
        w.calling 0 fun t k ↦ (serve true 0 {} k w.shared).any fun p ↦
          orderedStep 0 t k w.shared p.1 p.2 && t.markers && k.isCommit) = some true := by
    decide +kernel
  obtain ⟨w, hw, hc⟩ := Option.map_eq_some_iff.mp hrun
  have hreach := System.runMeeting_reachable (fun i t k _ r s' ↦
    WriteAnswered k r ∧ OrderedStep fencedParty i t k r s')
    (fun _ _ _ _ _ _ ↦ orderedStep_sound) hw
  obtain ⟨t, k, f, hi, hc⟩ := System.calling_iff.mp hc
  obtain ⟨⟨r, s'⟩, hserve, hc⟩ := (Option.any_eq_true ..).mp hc
  simp only [Bool.and_eq_true] at hc
  obtain ⟨⟨hstep, hm⟩, hk⟩ := hc
  have hsem : served true 0 t k w.shared r s' := ⟨⟨{}, hserve⟩, rfl⟩
  exact ⟨w, t, k, f, r, s', hreach.mono And.left, hi, hsem, hk,
    commits_in_order (Store.fresh_wf _) (fun _ _ _ _ ↦ Store.fresh_unused _ _) hreach hi
      ⟨hsem, orderedStep_sound hstep⟩ hm hk⟩

/-- The check whether the awaited version exists fails, and client 0 commits version 2 although
version 1 holds the running marker of client 1. -/
theorem commit_overtakes_marker : ∃ w,
    System.after true fencedParty (.fresh [(0, [])])
      (steps 1 4 ++ steps 0 8 ++ asks 0 [.addRows 0 [] none, .commit false] ++
        [(0, { fault := .failed })] ++ steps 0 2) = some w ∧
    w.shared.Holds 0 0 2 [.add ⟨some 0, 0, [], none⟩ 0] ∧
    ∃ o d, w.shared.get (.version 0 1) = some o ∧ o.content = .marker 1 d := by
  have hrun : ((System.after true fencedParty (.fresh [(0, [])])
      (steps 1 4 ++ steps 0 8 ++ asks 0 [.addRows 0 [] none, .commit false] ++
        [(0, { fault := .failed })] ++ steps 0 2)).map
      fun w ↦ (w.shared.get (.version 0 2), w.shared.get (.version 0 1))) =
      some (some ⟨.commit ⟨some 0, true, [.add ⟨some 0, 0, [], none⟩ 0]⟩, 3, 0⟩,
        some ⟨.marker 1 (some 30000), 1, 0⟩) := by
    decide +kernel
  obtain ⟨w, hw, hv⟩ := Option.map_eq_some_iff.mp hrun
  obtain ⟨h₂, h₁⟩ : _ ∧ _ := by simpa only [Prod.mk.injEq] using hv
  exact ⟨w, hw, ⟨_, _, h₂, rfl, rfl, rfl⟩, _, _, h₁, rfl⟩

end Runs

end LakeVilla
