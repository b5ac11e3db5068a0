import LakeVilla.Guarantees.Service

/-!
# Marker fencing

Holders of markers may act arbitrarily long after their leases ended, and requests may fail or lose
their responses. Every write to a version that holds a marker is conditional on the marker's ETag,
except the release after a failed open; that one writes a commit without actions, over the
transaction's own marker or over an empty commit.
-/

namespace LakeVilla

open Concurrency

/-- A step of client `i` respects the markers of all clients. -/
structure Fence (i : TxnId) (s s' : Store) : Prop where
  /-- a running marker is placed on an absent version, by the client it names -/
  placed : ∀ p v o j d, s'.get (.version p v) = some o → o.content = .marker j d →
    s.get (.version p v) = some o ∨ s.get (.version p v) = none ∧ j = i
  /-- only the client that placed a marker puts actions into its version -/
  owner : ∀ p v o j d, s.get (.version p v) = some o → o.content = .marker j d →
    ∀ as, s'.log p v = some as → as ≠ [] → j = i
  /-- the actions of a version without a running marker stay -/
  final : ∀ p v as, s.log p v = some as → s'.log p v = some as

theorem Fenced.fence {i : TxnId} {s s' : Store} (h : Fenced i s s') : Fence i s s' where
  placed _ _ _ _ _ := h.marker_back
  owner p v o j d ho hc as hlog has := by
    rcases h.version p v with hv | ⟨o', ho', -, hm⟩
    · have hnone : s'.log p v = none := by
        rw [Store.log, hv, ho]
        obtain ⟨content, e, ms⟩ := o
        obtain rfl : content = .marker j d := hc
        rfl
      rw [hnone] at hlog
      cases hlog
    · rw [ho, Option.map_some, hc] at hm
      obtain ⟨o'', c, ho'', hc', rfl⟩ := Store.log_eq_some.mp hlog
      obtain rfl := Option.some.inj (ho'.symm.trans ho'')
      rw [hc'] at hm
      cases hm with
      | commit => rfl
      | release _ _ _ hact => exact absurd hact has
  final p v as := h.log_mono

/-- Every step is fenced. -/
def fencing : Protocol TxnId Txn Response Store where
  inv := Store.WF
  guar i _ _ s _ s' := Fenced i s s'

section Safe

variable {sem : Semantics TxnId Txn Response Store} {fuel : ℕ} {party : TxnId → Party} {s : Store}

theorem fencing_loose
    (hsem : ∀ {i t k s r s'}, sem i t k s r s' → ∃ d, answer d k (s.wait d.delay) = (r, s')) :
    Loose sem fencing :=
  .ofServed hsem id id fun _ _ hwf hf _ _ ↦ ⟨hwf, hf⟩

theorem fencing_committing (i : TxnId) (c : Config) :
    Committing sem fencing i c fun _ _ _ ↦ True :=
  ⟨fun _ _ _ _ _ hwf hf ↦ ⟨hwf, hf.of_wait⟩⟩

theorem fencing_admitting (i : TxnId) : Admitting sem fencing i :=
  fun _ _ _ _ _ _ _ _ _ _ _ hwf hf ↦ ⟨hwf, hf.of_wait⟩

theorem fencing_safe
    (hsem : ∀ {i t k s r s'}, sem i t k s r s' → ∃ d, answer d k (s.wait d.delay) = (r, s'))
    (hs : s.WF) (hu : ∀ i c p, party i = .lakeVilla c p → s.Unused i) :
    Safe sem fencing (Party.Ended sem (fun _ _ _ ↦ True) party) (System.initial fuel party s) :=
  (fencing_loose hsem).system (L := fun _ _ _ _ ↦ True)
    (fun i c p hp ↦ ⟨.trivial _ i, fencing_committing i c, trivial, hu i c p hp⟩)
    (fun i _ _ ↦ fencing_admitting i) hs

end Safe

section Runs

variable {fuel : ℕ} {party : TxnId → Party} {s : Store} {w w' : System}

/-- **Markers fence their versions.** In every run, every next step respects the markers, and the
actions of a version that does not hold a running marker never change. -/
theorem versions_fenced (hs : s.WF) (hu : ∀ i c p, party i = .lakeVilla c p → s.Unused i)
    (h : Reachable (served true) (System.initial fuel party s) w) :
    (∀ i m k f r s', w.client i = .call m k f → served true i m k w.shared r s' →
      Fence i w.shared s') ∧
    ∀ w', Reachable (served true) w w' → ∀ p v as, w.shared.log p v = some as →
      w'.shared.log p v = some as := by
  have hsafe := (fencing_safe served_answer hs hu).reachable h
  refine ⟨fun i m k f r s' hc hsem ↦ ?_, fun w' hr p v as hlog ↦ ?_⟩
  · exact (show Fenced i w.shared s' from (hsafe.act hc hsem).2.2.2).fence
  · exact ((fencing_loose served_answer).toDisciplined.later hsafe hr).log_mono hlog

/-- Two transactions with markers on one table; the first one commits an added file. -/
def fencedParty : TxnId → Party
  | 0 | 1 => .lakeVilla { levels := { l0 := true } } 0
  | _ => .foreign 0

theorem versions_fenced_run : ∃ w,
    System.after true fencedParty (.fresh [(0, [])])
      (steps 0 6 ++ steps 1 3 ++ asks 0 [.addRows 0 [] none, .commit false] ++ steps 0 2) = some w ∧
    ∀ w', Reachable (served true) w w' →
      w'.shared.log 0 1 = some [.add ⟨some 0, 0, [], none⟩ 0] := by
  have hlog : ((System.after true fencedParty (.fresh [(0, [])])
      (steps 0 6 ++ steps 1 3 ++ asks 0 [.addRows 0 [] none, .commit false] ++ steps 0 2)).map
        fun w ↦ w.shared.log 0 1) = some (some [.add ⟨some 0, 0, [], none⟩ 0]) := by
    decide +kernel
  obtain ⟨w, hw, hl⟩ := Option.map_eq_some_iff.mp hlog
  refine ⟨w, hw, fun w' h' ↦ ?_⟩
  exact (versions_fenced (Store.fresh_wf _) (fun _ _ _ _ ↦ Store.fresh_unused _ _)
    (System.after_reachable hw)).2 w' h' 0 1 _ hl

end Runs

end LakeVilla
