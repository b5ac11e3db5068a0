import LakeVilla.Protocol.Tracking

/-!
# Opening tables

What `loadTable` gives: a newly reserved version, and a snapshot in which every version below it was
seen. The functions above it (`openTableV2`, `reopenTables`, `begin`) only repeat it.
-/

namespace LakeVilla

open Concurrency

/-! ## The ranges of the threads -/

theorem flatten_pieces (first step rem : ℕ) (k : ℕ) :
    ((List.range k).map fun i ↦
      List.range' (first + step * i + min i rem) (step + if i < rem then 1 else 0)).flatten =
      List.range' first (step * k + min k rem) := by
  induction k with
  | zero => simp
  | succ k ih =>
    rw [List.range_succ, List.map_append, List.flatten_append, ih]
    simp only [List.map_cons, List.map_nil, List.flatten_cons, List.flatten_nil, List.append_nil]
    have h : first + step * k + min k rem = first + 1 * (step * k + min k rem) := by omega
    rw [h, List.range'_append, Nat.mul_succ]
    congr 1
    split <;> omega

/-- The threads read every version once. -/
theorem splitRange_flatten (first last parts : ℕ) :
    (splitRange first last parts).flatten = List.range' first (last - first) := by
  unfold splitRange
  split
  · next h => simp [Nat.sub_eq_zero_of_le h]
  · next h =>
    simp only
    rw [flatten_pieces]
    congr 1
    have hpos : 0 < max 1 (min parts (last - first)) := by omega
    have hlt := Nat.mod_lt (last - first) hpos
    rw [Nat.min_eq_right (Nat.le_of_lt hlt), Nat.mul_comm]
    exact Nat.div_add_mod _ _

theorem splitRange_nonempty (first last parts : ℕ) :
    ∀ r ∈ splitRange first last parts, r ≠ [] := by
  intro r hr
  unfold splitRange at hr
  split at hr
  · cases hr
  · next h =>
    obtain ⟨i, -, rfl⟩ := List.mem_map.mp hr
    have hle : max 1 (min parts (last - first)) ≤ last - first := by omega
    have := Nat.div_pos hle (by omega)
    simp
    omega

/-- The versions in the transaction's copy of the global log exist. -/
def Noted (t : Txn) (s : Store) : Prop := ∀ e ∈ t.localLog, s.Exists e.1 e.2

theorem Noted.mono {t : Txn} {s s' : Store} (h : Noted t s) (hs : Later s s') : Noted t s' :=
  fun e he ↦ hs.exists_mono (h e he)

namespace Disciplined

variable {sem : Semantics TxnId Txn Response Store} {P : Protocol TxnId Txn Response Store}
variable {i : TxnId} {t : Txn} {s : Store}

/-! ## Before the reservation -/

theorem classifyVersion (D : Disciplined sem P) {p : Table} {v : ℕ} (hi : P.inv s)
    {Q : Tx.LogVersion → Txn → Store → Prop}
    (h : ∀ r s', QuietLater i s s' → P.inv s' → (r ≠ .missing → s'.Exists p v) → Q r t s') :
    Client.wp sem P i (Tx.classifyVersion (.version p v)) t Q s := by
  refine Client.wp_bind hi (D.ask (fun _ _ ↦ rfl) fun r s₁ s₂ h₁ hi₁ ha h₂ hi₂ ↦ ?_)
  cases r with
  | none =>
    exact Client.wp_pure fun s₃ h₃ hi₃ ↦ h _ s₃ (h₁.trans (h₂.trans (D.rely h₃))) hi₃ (by simp)
  | some o =>
    have hex : ∀ {s'}, QuietLater i s₂ s' → s'.Exists p v := fun h₃ ↦
      (h₂.trans h₃).later.exists_mono (by simp [Store.Exists, ha.read])
    have hret : ∀ r, Client.wp sem P i (pure r : Tx Tx.LogVersion) t Q s₂ := fun r ↦
      Client.wp_pure fun s₃ h₃ hi₃ ↦
        h r s₃ (h₁.trans (h₂.trans (D.rely h₃))) hi₃ fun _ ↦ hex (D.rely h₃)
    simp only
    split
    · exact hret _
    · split
      · exact hret _
      · exact hret _
    · exact hret _

theorem skipForeignVersions (D : Disciplined sem P) (fuel : ℕ) {p : Table} {v : ℕ} (hi : P.inv s)
    (hv : s.Exists p v) {Q : ℕ → Txn → Store → Prop}
    (h : ∀ v' s', QuietLater i s s' → P.inv s' → s'.Exists p v' → Q v' t s') :
    Client.wp sem P i (Tx.skipForeignVersions fuel p v) t Q s := by
  induction fuel generalizing s v with
  | zero => exact Client.wp_diverge
  | succ fuel ih =>
    unfold Tx.skipForeignVersions
    have hret : ∀ s₁, QuietLater i s s₁ → Client.wp sem P i (pure v : Tx ℕ) t Q s₁ := by
      refine fun s₁ h₁ ↦ Client.wp_pure fun s₂ h₂ hi₂ ↦ h v s₂ (h₁.trans (D.rely h₂)) hi₂ ?_
      exact (h₁.trans (D.rely h₂)).later.exists_mono hv
    refine Client.wp_bind hi (D.ask (fun _ _ ↦ rfl) fun b s₁ s₂ h₁ hi₁ ha h₂ hi₂ ↦ ?_)
    cases b with
    | false => exact hret s₂ (h₁.trans h₂)
    | true =>
      refine Client.wp_bind hi₂ (D.classifyVersion hi₂ fun r s₃ h₃ hi₃ _ ↦ ?_)
      have h₁₃ := h₁.trans (h₂.trans h₃)
      have hnext : Client.wp sem P i (Tx.skipForeignVersions fuel p (v + 1)) t Q s₃ :=
        ih hi₃ ((h₂.trans h₃).later.exists_mono ha.check) fun v' s' hs' hi' hex ↦
          h v' s' (h₁₃.trans hs') hi' hex
      cases r with
      | foreignCommit => exact hnext
      | empty => exact hnext
      | _ => exact hret s₃ h₁₃

theorem snapshotVersion (D : Disciplined sem P) (fuel : ℕ) {p : Table} (ht : Noted t s)
    (hi : P.inv s) {Q : Option ℕ → Txn → Store → Prop}
    (h : ∀ r l s', QuietLater i s s' → P.inv s' → Noted { t with localLog := l } s' →
      (∀ v, r = some v → s'.Exists p v ∧ t.cfg.levels.l2 = true) →
      Q r { t with localLog := l } s') :
    Client.wp sem P i (Tx.snapshotVersion fuel p) t Q s := by
  have hret : ∀ r : Option ℕ, (∀ v, r = some v → s.Exists p v ∧ t.cfg.levels.l2 = true) →
      Client.wp sem P i (pure r : Tx (Option ℕ)) t Q s := fun r hr ↦
    Client.wp_pure fun s' hs hi' ↦ h r t.localLog s' (D.rely hs) hi' (ht.mono (D.rely hs).later)
      fun v hv ↦ ⟨(D.rely hs).later.exists_mono (hr v hv).1, (hr v hv).2⟩
  refine Client.wp_get_bind ?_
  split
  · next v hl2 hv =>
    have hex : s.Exists p v := ht _ (AssocList.mem_of_lookup hv)
    split
    · refine Client.wp_bind hi (D.skipForeignVersions fuel hi hex fun v' s₁ h₁ hi₁ hex' ↦ ?_)
      refine Client.wp_modify_bind (Client.wp_pure fun s₂ h₂ hi₂ ↦ ?_)
      have hex₂ := (D.rely h₂).later.exists_mono hex'
      refine h _ _ s₂ (h₁.trans (D.rely h₂)) hi₂ (fun e he ↦ ?_) fun v hv ↦ ?_
      · rcases AssocList.mem_insertOrAssign he with he | rfl
        · exact (h₁.trans (D.rely h₂)).later.exists_mono (ht e he)
        · exact hex₂
      · exact Option.some.inj hv ▸ ⟨hex₂, hl2⟩
    · exact hret (some v) fun _ hv ↦ Option.some.inj hv ▸ ⟨hex, hl2⟩
  · exact hret none (by simp)

theorem listAttempts (D : Disciplined sem P) (n : ℕ) {p : Table}
    {Q : Option (List ℕ) → Txn → Store → Prop}
    (h : ∀ r s₁ s₂, QuietLater i s s₁ → P.inv s₁ → (∀ vs, r = some vs → vs = s₁.versions p) →
      (r = none → n = 0 ∨ ¬ Truthful sem i) → QuietLater i s₁ s₂ → P.inv s₂ → Q r t s₂)
    (hi : P.inv s) :
    Client.wp sem P i (Tx.listAttempts p n) t Q s := by
  induction n generalizing s with
  | zero =>
    exact Client.wp_pure fun s' hs hi' ↦ h none s' s' (D.rely hs) hi' (by simp) (by simp) .refl hi'
  | succ n ih =>
    refine Client.wp_bind hi (D.ask (fun _ _ ↦ rfl) fun r s₁ s₂ h₁ hi₁ ha h₂ hi₂ ↦ ?_)
    cases r with
    | some vs =>
      exact Client.wp_pure fun s₃ h₃ hi₃ ↦ h _ s₁ s₃ h₁ hi₁
        (fun _ he ↦ Option.some.inj he ▸ ha.listObjects) (by simp) (h₂.trans (D.rely h₃)) hi₃
    | none =>
      refine ih (fun r s₃ s₄ h₃ hi₃ hr _ h₄ hi₄ ↦ ?_) hi₂
      refine h r s₃ s₄ (h₁.trans (h₂.trans h₃)) hi₃ hr (fun _ ↦ .inr fun htr ↦ ?_) h₄ hi₄
      obtain ⟨s₀, d, hs, -, -⟩ := ha
      cases htr.listObjects hs

theorem highestVersion (D : Disciplined sem P) {p : Table} {mv : Option ℕ} (hi : P.inv s)
    (hmv : ∀ v, mv = some v → s.Exists p v) {Q : Option ℕ → Txn → Store → Prop}
    (h : ∀ r s₁ s₂, QuietLater i s s₁ → P.inv s₁ → (∀ v, r = some v → s₁.Exists p v) →
      (∀ v, mv = none → r = some v → ∀ u, s₁.Exists p u → u ≤ v) → (∀ v, mv = some v → r = mv) →
      (r = none → t.cfg.storageRetries = 0 ∨ ¬ Truthful sem i ∨ ∀ u, ¬ s₁.Exists p u) →
      QuietLater i s₁ s₂ → P.inv s₂ → Q r t s₂) :
    Client.wp sem P i (Tx.highestVersion p mv) t Q s := by
  cases mv with
  | some v =>
    refine Client.wp_pure fun s' hs hi' ↦ h _ s' s' (D.rely hs) hi' (fun u hu ↦ ?_) (by simp)
      (by simp) (by simp) .refl hi'
    exact (D.rely hs).later.exists_mono (hmv u hu)
  | none =>
    refine Client.wp_bind hi (Client.wp_get_bind
      (D.listAttempts _ (fun r s₁ s₂ h₁ hi₁ hr hn h₂ _ ↦ ?_)
      hi))
    cases r with
    | none =>
      refine Client.wp_pure fun s₃ h₃ hi₃ ↦ h none s₁ s₃ h₁ hi₁ (by simp) (by simp) (by simp)
        (fun _ ↦ ?_)
        (h₂.trans (D.rely h₃)) hi₃
      exact (hn rfl).imp_right .inl
    | some vs =>
      obtain rfl := hr vs rfl
      refine Client.wp_pure fun s₃ h₃ hi₃ ↦ h _ s₁ s₃ h₁ hi₁ (fun v hv ↦ ?_) (fun v _ hv u hu ↦ ?_)
        (by simp) (fun hn ↦ .inr (.inr fun u hu ↦ ?_)) (h₂.trans (D.rely h₃)) hi₃
      · exact Store.mem_versions.mp (List.max?_mem hv)
      · exact (List.max?_le_iff hv).mp le_rfl u (Store.mem_versions.mpr hu)
      · rw [List.max?_eq_none_iff] at hn
        have := Store.mem_versions.mpr hu
        simp [hn] at this

end Disciplined

theorem Parsed.noted {p : Table} {vs : List ℕ} {t t' : Txn} {l l' : List (Table × ℕ)}
    {hs : List Hazard} (h : Parsed p vs { t with localLog := l } t') (hh : t'.hazards ⊆ hs)
    (ho : .reopenFailed ∈ hs → .reopenFailed ∈ t'.hazards) :
    Parsed p vs t { t' with localLog := l', hazards := hs } where
  eq := by rw [h.eq]; rfl
  explicitLog := h.explicitLog.imp_right fun ⟨h₁, h₂, h₃⟩ ↦
    ⟨h₁, h₂, fun ht ↦ List.Subset.trans (h₃ ht) hh⟩
  hazards := List.Subset.trans h.hazards hh
  opened hf := h.opened (ho hf)
  markers := h.markers

/-- A table for which version `h + 1` was reserved, with a snapshot of the versions up to `h`. -/
structure LoadedTable (sem : Semantics TxnId Txn Response Store)
    (P : Protocol TxnId Txn Response Store) (i : TxnId) (t t' : Txn) (tbl tbl' : TableStats)
    (ok : Bool) (h : ℕ) (mk : Marker) (s₀ s : Store) : Prop where
  eq : tbl' = { tbl with
    deltaLog := tbl'.deltaLog, marker := some mk, readVersion := h, markerVersion := h + 1,
    concurrentRemoves := [], concurrentChange := false, base := tbl'.base }
  marker : NewMarker i t.markers tbl.basePath h s mk
  parsed : ∃ vs, (∀ v ∈ vs, v ≤ h) ∧ Parsed tbl.basePath vs t t'
  noted : Noted t' s
  reopening : t.reopening tbl ⊆ t'.hazards
  base : t.reopening tbl = [] → tbl'.base = tbl'.deltaLog.versions
  replays : Replays s tbl.basePath tbl'.deltaLog
  versions : ∀ u ∈ tbl'.deltaLog.versions, u ≤ h
  seen : ok = true → ∀ u ≤ h,
    Seen P t.markers s tbl.basePath tbl'.deltaLog.versions t'.prevMarkers u
  explicit : t.cfg.levels.l0 = true → t.cfg.levels.l2 = false → t'.explicitLog = true →
    ok = true → ∀ u ≤ h, u ∈ tbl'.deltaLog.versions
  above : t.markers = true → ∀ u, s₀.Exists tbl.basePath u → u ≤ h
  failed : ok = false → t.cfg.storageRetries = 0 ∨ ¬ Truthful sem i

namespace Disciplined

variable {sem : Semantics TxnId Txn Response Store} {P : Protocol TxnId Txn Response Store}
variable {i : TxnId} {t : Txn} {s : Store}

theorem loadTable (D : Disciplined sem P) (fuel : ℕ) {tbl : TableStats} {dep : Bool}
    (hid : t.transactionId = i) (hm : ∀ mk, tbl.marker = some mk → mk.Held i t.markers s)
    (ht : Noted t s) (hi : P.inv s) {Q : TableStats × Bool × Bool → Txn → Store → Prop}
    (hnone : ∀ l s₁ s₂, QuietLater i s s₁ → Noted { t with localLog := l } s₂ →
      (t.cfg.storageRetries = 0 ∨ ¬ Truthful sem i ∨ ∀ u, ¬ s₁.Exists tbl.basePath u) →
      QuietLater i s₁ s₂ → P.inv s₂ →
      Q ({ tbl with deltaLog := {}, concurrentRemoves := [], concurrentChange := false },
        false, dep)
        { t with localLog := l } s₂)
    (h : ∀ t' tbl' ok dep' h mk s', QuietLater i s s' → P.inv s' →
      LoadedTable sem P i t t' tbl tbl' ok h mk s s' → Q (tbl', ok, dep') t' s') :
    Client.wp sem P i (Tx.loadTable fuel tbl dep) t Q s := by
  unfold Tx.loadTable
  refine Client.wp_get_bind (Client.wp_bind hi (D.snapshotVersion fuel ht hi
    fun mv l s₁ h₁ hi₁ hl hmv ↦ ?_))
  refine Client.wp_bind hi₁ (D.highestVersion hi₁ (fun v hv ↦ (hmv v hv).1)
    fun r s₂ s₃ h₂ hi₂ hex hmax hsome hn h₃ hi₃ ↦ ?_)
  have h₁₃ := h₁.trans (h₂.trans h₃)
  cases r with
  | none =>
    refine Client.wp_pure fun s₄ h₄ hi₄ ↦ hnone l s₂ s₄ (h₁.trans h₂) ?_ (hn rfl)
      (h₃.trans (D.rely h₄)) hi₄
    exact hl.mono (h₂.trans (h₃.trans (D.rely h₄))).later
  | some highest =>
    refine Client.wp_bind hi₃ (D.reserveVersion fuel _ ?_ ?_ ?_ hi₃
      fun h' mk s₄ h₄ hi₄ hle hnew habove heq ↦ ?_)
    · exact hid
    · exact fun mk hmk ↦ (hm mk hmk).mono h₁₃.later
    · exact h₃.later.exists_mono (hex _ rfl)
    have hrange : ∀ u, u ∈ (splitRange 0 (h' + 1) t.cfg.numThreads).flatten ↔ u ≤ h' := by
      intro u
      rw [splitRange_flatten, List.mem_range'_1]
      omega
    refine Client.wp_bind hi₄ (D.parseRanges (h' + 1) hi₄ (fun hmk u hu ↦ ?_) ?_
      (splitRange_nonempty _ _ _) ?_ Replays.empty fun st' t' s₅ h₅ hi₅ hp ↦ ?_)
    · cases mv with
      | none => rfl
      | some v =>
        obtain rfl : highest = v := Option.some.inj (hsome v rfl)
        have := heq hmk
        have := (hrange u).mp hu
        simp
        omega
    · exact fun v hv ↦ (hmv v hv).2
    · rw [splitRange_flatten]
      simp
    · refine Client.wp_modify_bind (Client.wp_pure fun s₆ h₆ hi₆ ↦ ?_)
      have h₅₆ := D.rely h₆
      obtain ⟨vs, hvs, hpar⟩ := hp.parsed
      refine h _ _ st'.logsOk st'.dependencies h' mk s₆ (h₁₃.trans (h₄.trans (h₅.trans h₅₆))) hi₆
        { eq := rfl
          marker := hnew.mono (h₅.trans h₅₆)
          parsed := ⟨vs, fun v hv ↦ (hrange v).mp (hvs hv),
            hpar.noted (List.subset_append_right _ _) ?_⟩
          noted := ?_
          reopening := List.subset_append_left _ _
          base := ?_
          replays := hp.replays.mono h₅₆.later
          versions := ?_
          seen := ?_
          explicit := fun h₁ h₂ h₃ hok u hu ↦ hp.explicit h₁ h₂ h₃ hok u ((hrange u).mpr hu)
          above := ?_
          failed := ?_ }
      · intro hf
        exact (List.mem_append.mp hf).resolve_left (t.reopenFailed_notMem_reopening _)
      · intro e he
        have hex' : s₆.Exists tbl.basePath h' :=
          (h₅.trans h₅₆).later.exists_mono hnew.before
        have hl' : Noted t' s₆ := by
          rw [Noted, hp.localLog]
          exact hl.mono (h₂.trans (h₃.trans (h₄.trans (h₅.trans h₅₆)))).later
        dsimp only at he
        split at he
        · rcases AssocList.mem_insertNew he with he | rfl
          · exact hl' e he
          · exact hex'
        · exact hl' e he
      · intro hr
        have hr' : (t.reopening tbl).isEmpty = true := by simp [hr]
        exact if_pos hr'
      · intro u hu
        rcases hp.versions u hu with hu | hu
        · cases hu
        · exact (hrange u).mp hu
      · intro hok u hu
        exact ((hp.seen hok).2 u ((hrange u).mpr hu)).mono h₅₆.later (List.Subset.refl _)
          (List.Subset.refl _)
      · exact fun hmk u hu ↦ habove hmk u (h₁₃.later.exists_mono hu)
      · intro hok
        rcases hp.failed hok with h' | h' | ⟨u, hu, m, s₇, h₇, s₈, d, hsem, -, -⟩
        · cases h'
        · exact .inl h'
        · refine .inr fun htr ↦ ?_
          have hex' := h₇.exists_mono ((D.wf hi₄).below ((hrange u).mp hu) hnew.before)
          have hr := htr.read hsem
          simp [Store.Exists, ← hr] at hex'

end Disciplined

/-! ## A loaded table -/

namespace LoadedTable

variable {sem : Semantics TxnId Txn Response Store} {P : Protocol TxnId Txn Response Store}
variable {i : TxnId} {t t' : Txn} {s₀ s s' : Store} {tbl tbl' : TableStats} {ok : Bool} {h : ℕ}
variable {mk : Marker}

theorem basePath (hl : LoadedTable sem P i t t' tbl tbl' ok h mk s₀ s) :
    tbl'.basePath = tbl.basePath := by rw [hl.eq]

theorem markerVersion (hl : LoadedTable sem P i t t' tbl tbl' ok h mk s₀ s) :
    tbl'.markerVersion = h + 1 := by rw [hl.eq]

theorem carried (hl : LoadedTable sem P i t t' tbl tbl' ok h mk s₀ s) : t.Frame t' :=
  have ⟨_, _, hp⟩ := hl.parsed
  hp.frame

theorem committed (hl : LoadedTable sem P i t t' tbl tbl' ok h mk s₀ s) :
    tbl'.committed = tbl.committed := by rw [hl.eq]

theorem reserved (hl : LoadedTable sem P i t t' tbl tbl' ok h mk s₀ s)
    (hc : t.markers = true ∨ tbl.committed = false) : Reserved i t.markers s tbl' := by
  have hm := hl.marker
  have hplaced : t.markers = true ∨ tbl.committed = true → s.Exists tbl.basePath (h + 1) := by
    intro hp
    rcases hc with hc | hc
    · exact (hm.placed hc).2.2
    · exact (hm.placed (hp.resolve_right (by simp [hc]))).2.2
  rw [hl.eq]
  exact ⟨⟨mk, rfl, hm.table, hm.version, hm.held⟩, hm.before, hplaced, hm.before⟩

theorem below (hl : LoadedTable sem P i t t' tbl tbl' ok h mk s₀ s) :
    ∀ u ∈ tbl'.deltaLog.versions, u < tbl'.markerVersion := fun u hu ↦ by
  rw [hl.markerVersion]
  exact Nat.lt_succ_of_le (hl.versions u hu)

theorem snapshot (hl : LoadedTable sem P i t t' tbl tbl' true h mk s₀ s) : Snapshot t' s tbl' where
  replays := hl.basePath ▸ hl.replays
  versions := hl.below
  base hh := hl.base (List.subset_nil.mp (hh ▸ hl.reopening))
  concurrent := by rw [hl.eq]; exact ⟨rfl, rfl⟩
  explicit h₁ h₂ h₃ u hu := by
    rw [hl.markerVersion] at hu
    rw [hl.carried.cfg] at h₁ h₂
    exact hl.explicit h₁ h₂ h₃ rfl u (Nat.le_of_lt_succ hu)

theorem tracks (hl : LoadedTable sem P i t t' tbl tbl' true h mk s₀ s) :
    Tracks P i t' s tbl' where
  fresh hm _ := by
    rw [hl.carried.markers] at hm
    obtain ⟨hv, ho, -⟩ := hl.marker.placed hm
    exact ⟨mk, by rw [hl.eq], hv, ho⟩
  logged u hu := hl.basePath ▸ hl.replays.logged u hu
  below u hu := .inl (hl.snapshot.versions u hu)
  covered u hu := by
    rw [hl.markerVersion] at hu
    rw [hl.carried.markers, hl.basePath]
    exact .inl (hl.seen rfl u (Nat.le_of_lt_succ hu))
  checked hh u hu := .inl (hl.snapshot.base hh ▸ hu)

end LoadedTable

/-! ## Loading all tables -/

namespace Loading

variable {sem : Semantics TxnId Txn Response Store} {P : Protocol TxnId Txn Response Store}
variable {i : TxnId} {c : Config} {L : Bool → Txn → Store → Prop} {b : Bool}
variable {ps : List (Table × ℕ)} {js : List ℕ} {t t' : Txn} {s s' : Store} {j : ℕ}
variable {tbl tbl' : TableStats} {ok : Bool} {h : ℕ} {mk : Marker}

/-- A table was loaded, or could not be loaded completely. -/
theorem load (hL : Local P i L) (hg : Loading sem P i c L b ps (j :: js) t s)
    (hj : t.tables[j]? = some tbl) (hc : t.markers = true ∨ tbl.committed = false)
    (hs : QuietLater i s s') (hwf : s'.WF)
    (hl : LoadedTable sem P i t t' tbl tbl' ok h mk s s') :
    Loading sem P i c L b ps (if ok then js else j :: js) (t'.modifyTable j fun _ ↦ tbl') s' := by
  obtain ⟨vs, hvs, hpar⟩ := hl.parsed
  have hts : (t'.modifyTable j fun _ ↦ tbl').tables = t.tables.modify j fun _ ↦ tbl' := by
    rw [Txn.modifyTable, hpar.tables]
  have hmem : ∀ {x}, x ∈ (t'.modifyTable j fun _ ↦ tbl').tables → x ∈ t.tables ∨ x = tbl' := by
    intro x hx
    rw [hts] at hx
    exact (List.mem_modify hx).imp_right fun ⟨_, _, hx⟩ ↦ hx
  have hpaths : (t'.modifyTable j fun _ ↦ tbl').tables.map (·.basePath) =
      t.tables.map (·.basePath) := by
    rw [hts, List.map_modify_eq _ fun a ha ↦ ?_]
    rw [hl.basePath, Option.some.inj (hj.symm.trans ha)]
  have husable : (t'.modifyTable j fun _ ↦ tbl').Usable → t.Usable := fun hu ↦
    ⟨by rw [Txn.Distinct, ← hpaths]; exact hu.distinct, fun hf ↦ hu.opened (hpar.hazards hf)⟩
  have hprev : (t'.modifyTable j fun _ ↦ tbl').prevMarkers =
      t.prevMarkers ++ vs.map fun u ↦ (tbl.basePath, u) := hpar.prevMarkers
  have hgr : t.Grows (t'.modifyTable j fun _ ↦ tbl') := hpar.grows.trans (.modifyTable ..)
  have hex : ∀ u ≤ h, s'.Exists tbl.basePath u := fun u hu ↦ hwf.below hu hl.marker.before
  have hloaded : ok = false → Truthful sem i → c.storageRetries ≠ 0 → False := fun hok htr hn ↦
    (hl.failed hok).elim (fun h' ↦ hn (hg.cfg ▸ h')) fun h' ↦ h' htr
  exact
    { sound :=
        { id := hpar.id.trans hg.sound.id
          tables := fun x hx ↦ by
            rw [Txn.modifyTable, Txn.markers]
            rcases hmem hx with hx | rfl
            · exact hpar.cfg ▸ (hg.sound.tables x hx).mono hs.later
            · exact hpar.cfg ▸ hl.reserved hc
          localLog := hl.noted
          prevMarkers := fun e he ↦ by
            rw [hprev, List.mem_append, List.mem_map] at he
            rcases he with he | ⟨u, hu, rfl⟩
            · exact hs.later.exists_mono (hg.sound.prevMarkers e he)
            · exact hex u (hvs u hu) }
      cfg := hpar.cfg.trans hg.cfg
      recalled := fun hd ↦ by
        have hd' : t.DistinctWith ps := by
          rw [Txn.DistinctWith, ← hpaths]
          exact hd
        have hrec := hg.recalled hd'
        refine ⟨fun hne ↦ ?_, fun e he x hx hxe ↦ ?_, fun e he q hq hqe ↦ ?_, fun e he ↦ ?_⟩
        · by_contra hm
          have hm' : t.markers = false := by
            simpa [Txn.modifyTable, Txn.markers, hpar.cfg] using hm
          rw [hprev, hpar.markers hm', List.map_nil, List.append_nil] at hne
          simp [hrec.markers hne] at hm'
        · rw [hprev, List.mem_append, List.mem_map] at he
          obtain ⟨a, ha⟩ := List.getElem?_of_mem hx
          rw [hts] at ha
          rcases List.getElem?_modify_eq_some ha with ⟨-, -, -, rfl⟩ | ⟨hne, ha⟩
          · rw [hl.markerVersion]
            refine Nat.lt_succ_of_le ?_
            rcases he with he | ⟨u, hu, rfl⟩
            · refine hl.above (hrec.markers (List.ne_nil_of_mem he)) e.2 ?_
              rw [← hl.basePath, hxe]
              exact hg.sound.prevMarkers e he
            · exact hvs u hu
          · rcases he with he | ⟨u, hu, rfl⟩
            · exact hrec.below e he x (List.mem_of_getElem? ha) hxe
            · exact absurd (hd'.distinct.index_eq ha hj hxe) hne
        · rw [hprev, List.mem_append, List.mem_map] at he
          rcases he with he | ⟨u, hu, rfl⟩
          · exact hrec.below' e he q hq hqe
          · have hdis := List.disjoint_of_nodup_append hd'
            refine (hdis ?_ (List.mem_map.mpr ⟨q, hq, hqe⟩)).elim
            exact List.mem_map.mpr ⟨tbl, List.mem_of_getElem? hj, rfl⟩
        · rw [hprev, List.mem_append, List.mem_map] at he
          rw [hpaths]
          rcases he with he | ⟨u, hu, rfl⟩
          · exact hrec.opened e he
          · exact List.mem_append_left _ (List.mem_map.mpr ⟨tbl, List.mem_of_getElem? hj, rfl⟩)
      uncommitted := fun hf x hx ↦ by
        rcases hmem hx with hx | rfl
        · exact hg.uncommitted hf x hx
        · rw [hl.eq]
          exact hg.uncommitted hf tbl (List.mem_of_getElem? hj)
      tracks := fun hr hu a x ha hn ↦ by
        rw [hts] at ha
        have hold : a ≠ j → t.tables[a]? = some x → a ∉ js →
            Tracks P i (t'.modifyTable j fun _ ↦ tbl') s' x := fun hne ha' hna ↦
          (hg.tracks hr (husable hu) a x ha' (by simp [hne, hna])).mono hgr hs
        cases ok with
        | true =>
          rcases List.getElem?_modify_eq_some ha with ⟨-, -, -, rfl⟩ | ⟨hne, ha'⟩
          · exact hl.tracks.mono (.modifyTable ..) .refl
          · exact hold hne ha' hn
        | false =>
          simp only [Bool.false_eq_true, if_false, List.mem_cons, not_or] at hn
          rcases List.getElem?_modify_eq_some ha with ⟨hf, -⟩ | ⟨hne, ha'⟩
          · exact absurd hf hn.1
          · exact hold hne ha' hn.2
      locally := fun hr htr hn hu ↦ by
        cases ok with
        | false => exact (hloaded rfl htr hn).elim
        | true =>
          have hL₀ := hL.frame (hL.later (hg.locally hr htr hn (husable hu)) hs.later) hpar.frame
          refine hL.load hL₀ (hpar.tables ▸ hj) ?_ hl.snapshot ?_
          · exact List.Subset.trans (hpar.frame.reopening tbl) hl.reopening
          · rw [hl.eq]
      opened := fun htr hn hf ↦ hg.opened htr hn (hpar.opened hf)
      owns := (hg.owns.mono hs).modify hts fun a ha ↦ by
        obtain rfl := Option.some.inj (hj.symm.trans ha)
        rw [hl.eq]
        exact ⟨rfl, rfl, rfl⟩ }

/-- The versions of a table could not be listed. -/
theorem unlisted (hg : Loading sem P i c L b ps (j :: js) t s) (hj : t.tables[j]? = some tbl)
    (hs : QuietLater i s s') {l : List (Table × ℕ)} (hl : Noted { t with localLog := l } s')
    (hn : ¬ (Truthful sem i ∧ c.storageRetries ≠ 0)) :
    Loading sem P i c L b ps (j :: js) (({ t with localLog := l } : Txn).modifyTable j fun _ ↦
      { tbl with deltaLog := {}, concurrentRemoves := [], concurrentChange := false }) s' := by
  have hmem : ∀ {x}, x ∈ t.tables.modify j (fun _ ↦
      { tbl with deltaLog := {}, concurrentRemoves := [], concurrentChange := false }) →
      ∃ y ∈ t.tables, x = { y with
        deltaLog := x.deltaLog, concurrentRemoves := x.concurrentRemoves,
        concurrentChange := x.concurrentChange } := by
    intro x hx
    rcases List.mem_modify hx with hx | ⟨y, hy, rfl⟩
    · exact ⟨x, hx, rfl⟩
    · exact ⟨tbl, List.mem_of_getElem? hj, rfl⟩
  have hpaths : (t.tables.modify j fun _ ↦
      ({ tbl with deltaLog := {}, concurrentRemoves := [], concurrentChange := false } :
        TableStats)).map (·.basePath) = t.tables.map (·.basePath) := by
    refine List.map_modify_eq _ fun a ha ↦ ?_
    obtain rfl := Option.some.inj (hj.symm.trans ha)
    rfl
  exact
    { sound :=
        { id := hg.sound.id
          tables := fun x hx ↦ by
            obtain ⟨y, hy, hxy⟩ := hmem hx
            have hr := (hg.sound.tables y hy).mono hs.later
            rw [hxy]
            exact ⟨hr.marker, hr.before, hr.placed, hr.read⟩
          localLog := hl
          prevMarkers := fun e he ↦ hs.later.exists_mono (hg.sound.prevMarkers e he) }
      cfg := hg.cfg
      recalled := fun hd ↦ by
        have hrec := hg.recalled (by
          rw [Txn.DistinctWith, Txn.modifyTable] at hd
          rw [Txn.DistinctWith, ← hpaths]
          exact hd)
        refine ⟨hrec.markers, fun e he x hx hxe ↦ ?_, hrec.below', fun e he ↦ ?_⟩
        · obtain ⟨y, hy, hxy⟩ := hmem hx
          rw [hxy] at hxe ⊢
          exact hrec.below e he y hy hxe
        · rw [Txn.modifyTable, hpaths]
          exact hrec.opened e he
      uncommitted := fun hf x hx ↦ by
        obtain ⟨y, hy, hxy⟩ := hmem hx
        rw [hxy]
        exact hg.uncommitted hf y hy
      tracks := fun hr hu a x ha hna ↦ by
        have hu' : t.Usable := by
          refine ⟨?_, hu.opened⟩
          rw [Txn.Distinct, ← hpaths]
          exact hu.distinct
        rcases List.getElem?_modify_eq_some ha with ⟨rfl, -⟩ | ⟨hne, ha'⟩
        · exact absurd List.mem_cons_self hna
        · exact (hg.tracks hr hu' a x ha' hna).mono
            ⟨rfl, List.Subset.refl _, List.Subset.refl _, fun h ↦ h⟩ hs
      locally := fun _ htr hret _ ↦ absurd ⟨htr, hret⟩ hn
      opened := hg.opened
      owns := (hg.owns.mono hs).modify rfl fun _ ha ↦ by
        obtain rfl := Option.some.inj (hj.symm.trans ha)
        exact ⟨rfl, rfl, rfl⟩ }

end Loading

namespace Disciplined

variable {sem : Semantics TxnId Txn Response Store} {P : Protocol TxnId Txn Response Store}
variable {i : TxnId} {c : Config} {L : Bool → Txn → Store → Prop} {b : Bool}
variable {ps : List (Table × ℕ)} {t : Txn} {s : Store}

theorem loadTables (D : Disciplined sem P) (hL : Local P i L) (fuel : ℕ) (js : List ℕ) {dep : Bool}
    (hg : Loading sem P i c L b ps js t s) (hjs : ∀ j ∈ js, j < t.tables.length)
    (hc : t.markers = true ∨ t.Idle) (hi : P.inv s)
    {Q : Option Bool → Txn → Store → Prop}
    (h : ∀ r t' s', QuietLater i s s' → P.inv s' → t'.tables.length = t.tables.length →
      t.Reloads t' → (∃ js', Loading sem P i c L b ps js' t' s') →
        (r.isSome → Loading sem P i c L b ps [] t' s') →
      (r = none → ¬ (Truthful sem i ∧ c.storageRetries ≠ 0)) → Q r t' s') :
    Client.wp sem P i (Tx.loadTables fuel js dep) t Q s := by
  induction js generalizing t s dep with
  | nil =>
    exact Client.wp_pure fun s' hs hi' ↦ h _ t s' (D.rely hs) hi' rfl
      (.refl t) ⟨[], hg.mono hL (D.rely hs)⟩ (fun _ ↦ hg.mono hL (D.rely hs)) (by simp)
  | cons j js ih =>
    unfold Tx.loadTables
    refine Client.wp_get_bind ?_
    have hlt := hjs j List.mem_cons_self
    split
    · next hj => simp [List.getElem?_eq_getElem hlt] at hj
    · next tbl hj =>
      have htbl := hg.sound.tables tbl (List.mem_of_getElem? hj)
      obtain ⟨mk, hmk, -, -, hheld⟩ := htbl.marker
      refine Client.wp_bind hi (D.loadTable fuel hg.sound.id
        (fun mk' hmk' ↦ Option.some.inj (hmk.symm.trans hmk') ▸ hheld) hg.sound.localLog hi ?_ ?_)
      · intro l s₁ s₂ h₁ hl hn h₂ hi₂
        have hn' : ¬ (Truthful sem i ∧ c.storageRetries ≠ 0) := by
          rintro ⟨htr, hret⟩
          rcases hn with hn | hn | hn
          · exact hret (hg.cfg ▸ hn)
          · exact hn htr
          · exact hn _ (h₁.later.exists_mono htbl.read)
        refine Client.wp_modify_bind (Client.wp_pure fun s₃ h₃ hi₃ ↦ ?_)
        have hg' := hg.unlisted hj ((h₁.trans h₂).trans (D.rely h₃))
          (hl.mono (D.rely h₃).later) hn'
        refine h none _ s₃ ((h₁.trans h₂).trans (D.rely h₃)) hi₃ (List.length_modify ..)
          ?_ ⟨_, hg'⟩ (by simp) fun _ ↦ hn'
        have hr : t.Reloads { t with localLog := l } := .of_tables (Txn.Aside.grows rfl) rfl
        exact hr.trans (.modifyTable hj rfl fun _ hu ↦ (List.not_mem_nil hu).elim)
      · intro t' tbl' ok dep' h' mk s₁ h₁ hi₁ hl
        have hg' := hg.load hL hj (hc.imp_right fun hc ↦ (hc tbl (List.mem_of_getElem? hj)).1) h₁
          (D.wf hi₁) hl
        have hlen : (t'.modifyTable j fun _ ↦ tbl').tables.length = t.tables.length := by
          have := hl.carried.tables.length_eq
          rw [Txn.modifyTable, List.length_modify, this]
        have hgr : t.Reloads (t'.modifyTable j fun _ ↦ tbl') :=
          have ⟨_, _, hpar⟩ := hl.parsed
          (Txn.Reloads.of_tables hpar.grows hpar.tables).trans
            (.modifyTable (hpar.tables ▸ hj) hl.committed hl.below)
        refine Client.wp_modify_bind ?_
        cases ok with
        | true =>
          refine ih hg' (fun a ha ↦ ?_) (hc.imp (fun hm ↦ hgr.markers ▸ hm) hgr.idle) hi₁
            fun r t'' s' hs' hi' hlen' hgr' hsome hgood hnone ↦ ?_
          · exact hlen ▸ hjs a (List.mem_cons_of_mem _ ha)
          · exact h r t'' s' (h₁.trans hs') hi' (hlen'.trans hlen) (hgr.trans hgr') hsome
              hgood hnone
        | false =>
          refine Client.wp_pure fun s₂ h₂ hi₂ ↦ h none _ s₂ (h₁.trans (D.rely h₂)) hi₂ hlen hgr
            ⟨_, hg'.mono hL (D.rely h₂)⟩ (by simp) fun _ hn ↦ ?_
          rcases hl.failed rfl with hf | hf
          · exact hn.2 (hg.cfg ▸ hf)
          · exact hf hn.1

theorem parseGlobalSnapshots (D : Disciplined sem P) (ht : Noted t s) (hi : P.inv s)
    {Q : Unit → Txn → Store → Prop}
    (h : ∀ l s', QuietLater i s s' → P.inv s' → Noted { t with localLog := l } s' →
      Q () { t with localLog := l } s') :
    Client.wp sem P i Tx.parseGlobalSnapshots t Q s := by
  have hskip : ∀ s₁, QuietLater i s s₁ →
      Client.wp sem P i (pure () : Tx Unit) t Q s₁ := fun s₁ h₁ ↦
    Client.wp_pure fun s₂ h₂ hi₂ ↦
      h t.localLog s₂ (h₁.trans (D.rely h₂)) hi₂ (ht.mono (h₁.trans (D.rely h₂)).later)
  unfold Tx.parseGlobalSnapshots
  refine Client.wp_get_bind ?_
  split
  · refine Client.wp_bind hi (D.ask (fun _ _ ↦ rfl) fun r s₁ s₂ h₁ hi₁ ha h₂ hi₂ ↦ ?_)
    cases r with
    | false => exact hskip s₂ (h₁.trans h₂)
    | true =>
      refine Client.wp_bind hi₂ (D.readRetry hi₂ fun r s₃ s₄ h₃ hi₃ hr _ h₄ hi₄ ↦ ?_)
      have h₁₃ := h₁.trans (h₂.trans h₃)
      split
      · next lines e m _ =>
        have hlines := (D.wf hi₃).global (hr _ rfl).read rfl
        refine Client.wp_modify fun s₅ h₅ hi₅ ↦ ?_
        have h₃₅ := h₄.trans (D.rely h₅)
        refine h _ s₅ (h₁₃.trans h₃₅) hi₅ ?_
        have hfold : ∀ (ls l : List (Table × ℕ)), (∀ e ∈ ls, s₅.Exists e.1 e.2) →
            (∀ e ∈ l, s₅.Exists e.1 e.2) →
            ∀ e ∈ ls.foldl (fun l e ↦ AssocList.insertNew l e.1 e.2) l, s₅.Exists e.1 e.2 := by
          intro ls
          induction ls with
          | nil => exact fun l _ hl ↦ hl
          | cons a ls ih =>
            refine fun l hls hl ↦ ih _ (fun e he ↦ hls e (List.mem_cons_of_mem _ he)) fun e he ↦ ?_
            rcases AssocList.mem_insertNew he with he | rfl
            · exact hl e he
            · exact hls a List.mem_cons_self
        exact hfold lines t.localLog (fun e he ↦ h₃₅.later.exists_mono (hlines e he))
          (ht.mono (h₁₃.trans h₃₅).later)
      · exact hskip s₄ (h₁₃.trans h₄)
  · exact hskip s .refl

theorem resetSnapshots (D : Disciplined sem P) (hL : Local P i L) {js : List ℕ}
    (hg : Loading sem P i c L b ps js t s) (hi : P.inv s) {Q : Unit → Txn → Store → Prop}
    (h : ∀ t' s', QuietLater i s s' → P.inv s' → t.Reloads t' →
      Loading sem P i c L b ps js t' s' → Q () t' s') :
    Client.wp sem P i Tx.resetSnapshots t Q s := by
  refine Client.wp_modify_bind (D.parseGlobalSnapshots (fun e he ↦ ?_) hi fun l s' hs hi' hl ↦ ?_)
  · dsimp only at he
    split at he
    · cases he
    · exact hg.sound.localLog e he
  · exact h _ s' hs hi' (.of_tables (Txn.Aside.grows rfl) rfl) ((hg.mono hL hs).aside hL rfl hl)

/-- Opening all tables again. -/
theorem reopenTables (D : Disciplined sem P) (hL : Local P i L) (fuel : ℕ) {retry : Bool}
    {js : List ℕ} (hg : Loading sem P i c L b ps js t s) (hc : t.markers = true ∨ t.Idle)
    (hi : P.inv s) {Q : Bool → Txn → Store → Prop}
    (h : ∀ r t' s', QuietLater i s s' → P.inv s' → t.Reloads t' →
      (∃ js', Loading sem P i c L b ps js' t' s') → (r = true → Loading sem P i c L b ps [] t' s') →
      (r = false → ¬ (Truthful sem i ∧ c.storageRetries ≠ 0)) → Q r t' s') :
    Client.wp sem P i (Tx.reopenTables fuel retry) t Q s := by
  induction fuel generalizing t s retry js with
  | zero => exact Client.wp_diverge
  | succ fuel ih =>
    unfold Tx.reopenTables
    refine Client.wp_bind hi (D.resetSnapshots hL hg hi fun t₁ s₁ h₁ hi₁ hgr₁ hg₁ ↦ ?_)
    have hc₁ : t₁.markers = true ∨ t₁.Idle := hc.imp (fun hm ↦ hgr₁.markers ▸ hm) hgr₁.idle
    refine Client.wp_get_bind (Client.wp_bind hi₁ (D.loadTables hL fuel _ hg₁.all
      (fun j hj ↦ List.mem_range.mp hj) hc₁ hi₁ fun r t₂ s₂ h₂ hi₂ _ hgr₂ hsome hgood hnone ↦ ?_))
    have h₁₂ := h₁.trans h₂
    have hgr := hgr₁.trans hgr₂
    have hagain : Client.wp sem P i (Tx.reopenTables fuel true) t₂ Q s₂ :=
      have ⟨_, hg₂⟩ := hsome
      ih hg₂ (hc.imp (fun hm ↦ hgr.markers ▸ hm) hgr.idle) hi₂ fun r t' s' hs' hi' hgr' ↦
        h r t' s' (h₁₂.trans hs') hi' (hgr.trans hgr')
    split
    · split
      · exact hagain
      · refine Client.wp_pure fun s₃ h₃ hi₃ ↦ h false t₂ s₃ (h₁₂.trans (D.rely h₃)) hi₃ hgr ?_
          (by simp) fun _ ↦ hnone rfl
        exact hsome.imp fun _ hg₂ ↦ hg₂.mono hL (D.rely h₃)
    · refine Client.wp_pure fun s₃ h₃ hi₃ ↦ h true t₂ s₃ (h₁₂.trans (D.rely h₃)) hi₃ hgr ?_ ?_
        (by simp)
      · exact hsome.imp fun _ hg₂ ↦ hg₂.mono hL (D.rely h₃)
      · exact fun _ ↦ (hgood rfl).mono hL (D.rely h₃)
    · exact hagain

end Disciplined

/-! ## Opening a table -/

namespace Loading

variable {sem : Semantics TxnId Txn Response Store} {P : Protocol TxnId Txn Response Store}
variable {i : TxnId} {c : Config} {L : Bool → Txn → Store → Prop} {b : Bool}
variable {ps : List (Table × ℕ)} {js : List ℕ} {t t' : Txn} {s s' : Store} {tbl : TableStats}
variable {ok : Bool} {h : ℕ} {mk : Marker} {p : Table}

/-- After an abort everything has to be loaded again. -/
theorem aborted (hL : Local P i L) (hg : Loading sem P i c L b ps js t s) (ha : Aborted t t')
    (hsub : t'.sublog = t.sublog) :
    Loading sem P i c L b ps (List.range t'.tables.length) t' s := by
  have hpaths : t'.tables.map (·.basePath) = t.tables.map (·.basePath) := by
    have hts := ha.tables
    generalize t.tables = ts at hts
    generalize t'.tables = ts' at hts
    induction hts with
    | nil => rfl
    | cons hab _ ih => rw [List.map_cons, List.map_cons, ih, hab.eq]
  have hmem : ∀ {x}, x ∈ t'.tables → ∃ y ∈ t.tables, x = { y with marker := x.marker } :=
    fun hx ↦ have ⟨y, hy, hxy⟩ := ha.tables.exists_left hx; ⟨y, hy, hxy.eq⟩
  have hu : t'.Usable → t.Usable := fun hu ↦ by
    refine ⟨?_, fun hf ↦ hu.opened ?_⟩
    · rw [Txn.Distinct, ← hpaths]
      exact hu.distinct
    · rw [ha.eq]
      exact hf
  exact
    { sound := ha.sound hg.sound
      cfg := by rw [ha.eq]; exact hg.cfg
      recalled := fun hd ↦ by
        have hd' : t.DistinctWith ps := by
          rw [Txn.DistinctWith, ← hpaths]
          exact hd
        have hrec := hg.recalled hd'
        have hprev : t'.prevMarkers = t.prevMarkers := by rw [ha.eq]
        refine ⟨fun hne ↦ ?_, fun e he x hx hxe ↦ ?_, fun e he ↦ ?_, fun e he ↦ ?_⟩
        · rw [ha.eq]
          exact hrec.markers (hprev ▸ hne)
        · obtain ⟨y, hy, hxy⟩ := hmem hx
          rw [hxy] at hxe ⊢
          exact hrec.below e (hprev ▸ he) y hy hxe
        · exact hrec.below' e (hprev ▸ he)
        · rw [hpaths]
          exact hrec.opened e (hprev ▸ he)
      uncommitted := fun hf x hx ↦ by
        obtain ⟨y, hy, hxy⟩ := hmem hx
        rw [hxy]
        exact hg.uncommitted hf y hy
      tracks := fun _ _ a x ha' hn ↦ by
        exact absurd (List.mem_range.mpr (List.getElem?_eq_some_iff.mp ha').1) hn
      locally := fun hr htr hn hu' ↦ hL.frame (hg.locally hr htr hn (hu hu')) (ha.frame hsub)
      opened := by rw [ha.eq]; exact hg.opened
      owns := hg.owns.tables (ha.tables.imp fun a b hab ↦ by
        rw [hab.eq]
        exact ⟨rfl, rfl, rfl⟩) }

/-- A table is being opened. -/
theorem opening (hL : Local P i L) (hg : Loading sem P i c L b ps js t s)
    (hps : ps = [] ∨ ∃ v, ps = [(p, v)]) (hs : QuietLater i s s') (hwf : s'.WF)
    (hl : LoadedTable sem P i t t' { basePath := p } tbl ok h mk s s') :
    Loading sem P i c L b [(p, h + 1)] js t' s' := by
  obtain ⟨vs, hvs, hpar⟩ := hl.parsed
  have hts : t'.tables = t.tables := hpar.tables
  have hprev : t'.prevMarkers = t.prevMarkers ++ vs.map fun u ↦ (p, u) := hpar.prevMarkers
  have hu : t'.Usable → t.Usable := fun hu ↦
    ⟨by rw [Txn.Distinct, ← hts]; exact hu.distinct, fun hf ↦ hu.opened (hpar.hazards hf)⟩
  exact
    { sound :=
        { id := hpar.id.trans hg.sound.id
          tables := fun x hx ↦ by
            rw [hpar.markers_eq]
            exact (hg.sound.tables x (hts ▸ hx)).mono hs.later
          localLog := hl.noted
          prevMarkers := fun e he ↦ by
            rw [hprev, List.mem_append, List.mem_map] at he
            rcases he with he | ⟨u, hu, rfl⟩
            · exact hs.later.exists_mono (hg.sound.prevMarkers e he)
            · exact hwf.below (hvs u hu) hl.marker.before }
      cfg := hpar.cfg.trans hg.cfg
      recalled := fun hd ↦ by
        rw [Txn.DistinctWith, hts] at hd
        have hrec : Recalled ps t := by
          refine hg.recalled ?_
          rcases hps with rfl | ⟨v, rfl⟩
          · rw [Txn.DistinctWith, List.map_nil, List.append_nil]
            exact List.Nodup.of_append_left hd
          · exact hd
        have hnew : ∀ e ∈ t'.prevMarkers, e.1 = p → e.2 < h + 1 := by
          intro e he hep
          rw [hprev, List.mem_append, List.mem_map] at he
          refine Nat.lt_succ_of_le ?_
          rcases he with he | ⟨u, hu, rfl⟩
          · refine hl.above (hrec.markers (List.ne_nil_of_mem he)) e.2 ?_
            rw [← hep]
            exact hg.sound.prevMarkers e he
          · exact hvs u hu
        refine ⟨fun hne ↦ ?_, fun e he x hx hxe ↦ ?_, fun e he q hq hqe ↦ ?_, fun e he ↦ ?_⟩
        · by_contra hm
          have hm' : t.markers = false := by simpa [hpar.markers_eq] using hm
          rw [hprev, hpar.markers hm', List.map_nil, List.append_nil] at hne
          simp [hrec.markers hne] at hm'
        · rw [hts] at hx
          rw [hprev, List.mem_append, List.mem_map] at he
          rcases he with he | ⟨u, hu, rfl⟩
          · exact hrec.below e he x hx hxe
          · have hdis := List.disjoint_of_nodup_append hd
            exact (hdis (List.mem_map.mpr ⟨x, hx, hxe⟩) (by simp)).elim
        · obtain rfl : q = (p, h + 1) := by simpa using hq
          exact hnew e he hqe.symm
        · rw [hts]
          rw [hprev, List.mem_append, List.mem_map] at he
          rcases he with he | ⟨u, hu, rfl⟩
          · have := hrec.opened e he
            rcases hps with rfl | ⟨v, rfl⟩
            · rw [List.map_nil, List.append_nil] at this
              exact List.mem_append_left _ this
            · exact this
          · simp
      uncommitted := fun hf x hx ↦ hg.uncommitted hf x (hts ▸ hx)
      tracks := fun hr hu' a x ha hn ↦
        (hg.tracks hr (hu hu') a x (hts ▸ ha) hn).mono hpar.grows hs
      locally := fun hr htr hn hu' ↦
        hL.frame (hL.later (hg.locally hr htr hn (hu hu')) hs.later) hpar.frame
      opened := fun htr hn hf ↦ hg.opened htr hn (hpar.opened hf)
      owns := (hg.owns.mono hs).same hts }

end Loading

/-- What was found out about a table that is being opened. -/
structure Pending (P : Protocol TxnId Txn Response Store) (i : TxnId) (t : Txn) (s : Store)
    (tbl : TableStats) : Prop where
  eq : tbl = { ({ basePath := tbl.basePath } : TableStats) with
    deltaLog := tbl.deltaLog, marker := tbl.marker, readVersion := tbl.readVersion,
    markerVersion := tbl.markerVersion, base := tbl.base }
  reserved : Reserved i t.markers s tbl
  snapshot : Snapshot t s tbl
  tracks : Tracks P i t s tbl

theorem Pending.mono {P : Protocol TxnId Txn Response Store} {i : TxnId} {t t' : Txn} {s s' : Store}
    {tbl : TableStats} (h : Pending P i t s tbl) (ht : t.Grows t') (hs : QuietLater i s s') :
    Pending P i t' s' tbl where
  eq := h.eq
  reserved := ht.markers ▸ h.reserved.mono hs.later
  snapshot := h.snapshot.mono ht hs.later
  tracks := h.tracks.mono ht hs

theorem Pending.append_idle {P : Protocol TxnId Txn Response Store} {i : TxnId} {t : Txn}
    {s : Store}
    {tbl : TableStats} (h : Pending P i t s tbl) (ht : t.Idle) :
    ({ t with tables := t.tables ++ [tbl] } : Txn).Idle := by
  intro x hx
  rcases List.mem_append.mp hx with hx | hx
  · exact ht x hx
  · rw [List.mem_singleton.mp hx]
    exact ⟨by rw [h.eq], h.snapshot.versions⟩

theorem LoadedTable.pending {sem : Semantics TxnId Txn Response Store}
    {P : Protocol TxnId Txn Response Store} {i : TxnId} {t t' : Txn} {s₀ s : Store}
    {tbl : TableStats} {p : Table} {h : ℕ} {mk : Marker}
    (hl : LoadedTable sem P i t t' { basePath := p } tbl true h mk s₀ s) :
    Pending P i t' s tbl where
  eq := by rw [hl.eq]
  reserved := hl.carried.markers ▸ hl.reserved (.inr rfl)
  snapshot := hl.snapshot
  tracks := hl.tracks

/-- A table was opened. -/
theorem Loading.append {sem : Semantics TxnId Txn Response Store}
    {P : Protocol TxnId Txn Response Store} {i : TxnId} {c : Config}
    {L : Bool → Txn → Store → Prop} {t : Txn} {s : Store} {tbl : TableStats} (hL : Local P i L)
    (hg : Loading sem P i c L false [(tbl.basePath, tbl.markerVersion)] [] t s)
    (hp : Pending P i t s tbl) :
    Good sem P i c L false { t with tables := t.tables ++ [tbl] } s := by
  have hu : ({ t with tables := t.tables ++ [tbl] } : Txn).Usable → t.Usable := fun hu ↦ by
    refine ⟨?_, hu.opened⟩
    have hd := hu.distinct
    rw [Txn.Distinct, List.map_append] at hd
    exact List.Nodup.of_append_left hd
  have hgr : t.Grows { t with tables := t.tables ++ [tbl] } :=
    ⟨rfl, List.Subset.refl _, List.Subset.refl _, fun h ↦ h⟩
  exact
    { sound :=
        { id := hg.sound.id
          tables := fun x hx ↦ by
            rcases List.mem_append.mp hx with hx | hx
            · exact hg.sound.tables x hx
            · exact List.mem_singleton.mp hx ▸ hp.reserved
          localLog := hg.sound.localLog
          prevMarkers := hg.sound.prevMarkers }
      cfg := hg.cfg
      recalled := fun hd ↦ by
        have hrec := hg.recalled (by
          rw [Txn.DistinctWith, List.map_append, List.map_nil, List.append_nil] at hd
          exact hd)
        refine ⟨hrec.markers, fun e he x hx hxe ↦ ?_, by simp, fun e he ↦ ?_⟩
        · rcases List.mem_append.mp hx with hx | hx
          · exact hrec.below e he x hx hxe
          · obtain rfl := List.mem_singleton.mp hx
            exact hrec.below' e he _ List.mem_cons_self hxe
        · rw [List.map_append, List.map_nil, List.append_nil]
          exact hrec.opened e he
      uncommitted := fun hf x hx ↦ by
        rcases List.mem_append.mp hx with hx | hx
        · exact hg.uncommitted hf x hx
        · rw [List.mem_singleton.mp hx, hp.eq]
      tracks := fun hr hu' a x ha hn ↦ by
        rcases List.mem_append.mp (List.mem_of_getElem? ha) with hx | hx
        · obtain ⟨a', ha'⟩ := List.getElem?_of_mem hx
          exact (hg.tracks hr (hu hu') a' x ha' (by simp)).mono hgr .refl
        · exact List.mem_singleton.mp hx ▸ hp.tracks.mono hgr .refl
      locally := fun hr htr hn hu' ↦ hL.append (hg.locally hr htr hn (hu hu')) hp.snapshot hp.eq
      opened := hg.opened
      owns :=
        { own := fun hr hl p v as ha hv ↦ by
            obtain ⟨x, hx, hx'⟩ := hg.owns.own hr hl p v as ha hv
            exact ⟨x, List.mem_append_left _ hx, hx'⟩
          written := fun hl x hx hc ↦ by
            rcases List.mem_append.mp hx with hx | hx
            · exact hg.owns.written hl x hx hc
            · rw [List.mem_singleton.mp hx, hp.eq] at hc
              cases hc } }

end LakeVilla
