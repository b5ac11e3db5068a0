import Mathlib.Algebra.BigOperators.Group.Finset.Piecewise
import Mathlib.Algebra.Order.BigOperators.Group.Finset
import LakeVilla.Transaction.TransactionIds

/-!
# Transaction ids are unique

However the threads of a process interleave, the ids that they take are distinct and none of them is
`UINT32_MAX`, as long as the process takes fewer than 2^32 ids. The counter then never fetches a
value twice: at most one value is skipped, so fewer than 2^32 ids need at most 2^32 fetches.
-/

namespace LakeVilla

open Concurrency Client

section Counter

variable {I : Type} [DecidableEq I]

/-- The fetched values that a thread got as ids, newest first. -/
def drawnFrom (l : List (I × ℕ)) (i : I) : List ℕ :=
  (l.filter fun e ↦ e.1 = i ∧ e.2 ≠ noTransaction).map (·.2)

/-- Every fetch gives an id to one thread or is skipped. -/
theorem length_eq_add_sum [Fintype I] (l : List (I × ℕ)) :
    l.length = (l.map (·.2)).count noTransaction + ∑ i, (drawnFrom l i).length := by
  induction l with
  | nil => simp [drawnFrom]
  | cons e l ih =>
    by_cases hskip : e.2 = noTransaction
    · have hdrawn : ∀ i, drawnFrom (e :: l) i = drawnFrom l i := fun i ↦ by simp [drawnFrom, hskip]
      simp only [hdrawn, List.map_cons, hskip, List.count_cons_self, List.length_cons, ih]
      omega
    · have hdrawn : ∀ i, (drawnFrom (e :: l) i).length =
          (drawnFrom l i).length + if e.1 = i then 1 else 0 := by
        intro i
        by_cases hi : e.1 = i <;> simp [drawnFrom, hskip, hi]
      simp only [hdrawn, Finset.sum_add_distrib, Finset.sum_ite_eq, Finset.mem_univ, if_true,
        List.map_cons, List.count_cons_of_ne hskip, List.length_cons, ih]
      omega

namespace IdCounter

variable {s s' : IdCounter I} {n : I → ℕ} {i : I} {v : ℕ}

/-- The ids of a thread so far, newest first. -/
def drawn (s : IdCounter I) (i : I) : List ℕ := drawnFrom s.fetched i

/-- **The invariant.** The values were fetched one after the other, at most 2^32 of them, and no
thread has more ids than it wanted. -/
structure Counts (n : I → ℕ) (s : IdCounter I) : Prop where
  next_lt : s.next < 2 ^ 32
  value : ∀ k e, s.fetched[k]? = some e → e.2 < 2 ^ 32 ∧ (e.2 + k + 1) % 2 ^ 32 = s.next
  length : s.fetched.length ≤ 2 ^ 32
  drawn : ∀ i, (s.drawn i).length ≤ n i

/-- At most 2^32 values in a row are distinct. -/
theorem Counts.nodup (h : s.Counts n) : (s.fetched.map (·.2)).Nodup := by
  rw [List.nodup_iff_getElem?_ne_getElem?]
  intro k k' hlt hk' heq
  rw [List.length_map] at hk'
  have hlength := h.length
  obtain ⟨e, he⟩ : ∃ e, s.fetched[k]? = some e := ⟨_, List.getElem?_eq_getElem (hlt.trans hk')⟩
  obtain ⟨e', he'⟩ : ∃ e, s.fetched[k']? = some e := ⟨_, List.getElem?_eq_getElem hk'⟩
  rw [List.getElem?_map, List.getElem?_map, he, he'] at heq
  have hvalue : e.2 = e'.2 := Option.some.inj heq
  have h₁ := (h.value k e he).2
  have h₂ := (h.value k' e' he').2
  omega

/-- Before a thread that still wants an id fetches a value, there is room for it. -/
theorem Counts.room [Fintype I] (h : s.Counts n) (hn : ∑ i, n i < 2 ^ 32)
    (hi : (s.drawn i).length < n i) : s.fetched.length < 2 ^ 32 := by
  have hskipped := List.nodup_iff_count_le_one.mp h.nodup noTransaction
  have hsum : ∑ i, (drawnFrom s.fetched i).length < ∑ i, n i :=
    Finset.sum_lt_sum (fun i _ ↦ h.drawn i) ⟨i, Finset.mem_univ i, hi⟩
  have hlength := length_eq_add_sum s.fetched
  omega

theorem mem_drawn : v ∈ s.drawn i ↔ (i, v) ∈ s.fetched ∧ v ≠ noTransaction := by
  simp [drawn, drawnFrom]

/-- The ids of all threads are distinct. -/
theorem Counts.drawn_nodup (h : s.Counts n) (i : I) : (s.drawn i).Nodup :=
  h.nodup.sublist (List.filter_sublist.map _)

theorem Counts.drawn_disjoint (h : s.Counts n) {j : I} (hv : v ∈ s.drawn i) (hv' : v ∈ s.drawn j) :
    i = j := by
  have heq := List.inj_on_of_nodup_map h.nodup (mem_drawn.mp hv).1 (mem_drawn.mp hv').1 rfl
  exact (Prod.mk.inj heq).1

theorem drawn_fetchAdd (s : IdCounter I) (i j : I) : (s.fetchAdd i).2.drawn j =
    if i = j ∧ s.next ≠ noTransaction then s.next :: s.drawn j else s.drawn j := by
  by_cases h : i = j ∧ s.next ≠ noTransaction
  · simp [drawn, drawnFrom, fetchAdd, h]
  · simp only [drawn, drawnFrom, fetchAdd, if_neg h]
    rw [List.filter_cons_of_neg (by simpa using h)]

/-- **One fetch.** -/
theorem Counts.fetchAdd [Fintype I] (h : s.Counts n) (hn : ∑ i, n i < 2 ^ 32)
    (hi : (s.drawn i).length < n i) : (s.fetchAdd i).2.Counts n where
  next_lt := Nat.mod_lt _ (by decide)
  value k e he := by
    cases k with
    | zero =>
      obtain rfl := Option.some.inj he
      exact ⟨h.next_lt, rfl⟩
    | succ k =>
      obtain ⟨hlt, heq⟩ := h.value k e he
      refine ⟨hlt, ?_⟩
      show (e.2 + (k + 1) + 1) % 2 ^ 32 = (s.next + 1) % 2 ^ 32
      omega
  length := h.room hn hi
  drawn j := by
    rw [drawn_fetchAdd]
    split_ifs with hj
    · obtain ⟨rfl, -⟩ := hj
      exact hi
    · exact h.drawn j

end IdCounter

end Counter

/-! ## Threads -/

section Threads

variable {I : Type} [DecidableEq I] [Fintype I] {n : I → ℕ} {i : I} {s s' : IdCounter I}

/-- Every call is a fetch of its thread. -/
def counting (n : I → ℕ) : Concurrency.Protocol I Unit IdResponse (IdCounter I) where
  inv s := s.Counts n
  guar i _ _ s _ s' := s' = (s.fetchAdd i).2

omit [Fintype I] in
/-- The other threads leave a thread's ids alone, and no value is forgotten. -/
theorem counting_rely (h : (counting n).rely (idSem I) i s s') :
    s'.drawn i = s.drawn i ∧ s.fetched <:+ s'.fetched := by
  induction h with
  | refl => exact ⟨rfl, List.suffix_rfl⟩
  | tail _ hstep ih =>
    obtain ⟨j, hj, _, _, _, -, -, -, rfl⟩ := hstep
    rw [IdCounter.drawn_fetchAdd, if_neg fun h ↦ hj h.1]
    exact ⟨ih.1, ih.2.trans (List.suffix_cons _ _)⟩

theorem wp_fetchAdd (hn : ∑ i, n i < 2 ^ 32) (hi : (s.drawn i).length < n i)
    {Q : ℕ → Unit → IdCounter I → Prop}
    (hQ : ∀ s₁ s₂, (counting n).rely (idSem I) i s s₁ → s₁.Counts n →
      (counting n).rely (idSem I) i (s₁.fetchAdd i).2 s₂ → (s₁.fetchAdd i).2.Counts n →
        Q s₁.next () s₂) :
    wp (idSem I) (counting n) i (perform IdCall.fetchAdd) () Q s := by
  refine wp_perform fun s₁ h₁ hs₁ r s₂ hsem ↦ ?_
  obtain ⟨⟨d, hd⟩, -⟩ := hsem
  obtain ⟨rfl, rfl⟩ := Prod.mk.inj (Option.some.inj hd)
  have hs₂ := hs₁.fetchAdd hn ((counting_rely h₁).1 ▸ hi)
  exact ⟨hs₂, rfl, fun s₃ h₃ _ ↦ hQ s₁ s₃ h₁ hs₁ h₃ hs₂⟩

theorem wp_uniqueTransactionId (hn : ∑ i, n i < 2 ^ 32) (hs : s.Counts n)
    (hi : (s.drawn i).length < n i) :
    wp (idSem I) (counting n) i uniqueTransactionId ()
      (fun id _ s' ↦ s'.drawn i = id :: s.drawn i) s := by
  refine wp_bind hs (wp_fetchAdd hn hi fun s₁ s₂ h₁ _ h₂ hs₂ ↦ ?_)
  obtain ⟨hdrawn, hfetched⟩ := counting_rely h₂
  rw [IdCounter.drawn_fetchAdd, (counting_rely h₁).1] at hdrawn
  refine wp_ite (fun hskip ↦ ?_) fun hskip ↦ wp_pure fun s₃ h₃ _ ↦ ?_
  · -- the value that is skipped is never fetched again
    rw [if_neg fun h ↦ h.2 hskip] at hdrawn
    refine wp_fetchAdd hn (hdrawn ▸ hi) fun s₃ s₄ h₃ _ h₄ hs₄ ↦ ?_
    have hold : noTransaction ∈ s₃.fetched.map (·.2) := by
      refine ((hfetched.trans (counting_rely h₃).2).map _).subset ?_
      exact hskip ▸ List.mem_cons_self
    have hnew : s₃.next ≠ noTransaction := fun h ↦
      (List.nodup_cons.mp hs₄.nodup).1 (h ▸ hold)
    rw [(counting_rely h₄).1, IdCounter.drawn_fetchAdd, if_pos ⟨rfl, hnew⟩, (counting_rely h₃).1,
      hdrawn]
  · rw [if_pos ⟨rfl, hskip⟩] at hdrawn
    rw [(counting_rely h₃).1, hdrawn]

theorem wp_takeIds (hn : ∑ i, n i < 2 ^ 32) {k : ℕ} (hs : s.Counts n)
    (hi : (s.drawn i).length + k ≤ n i) :
    wp (idSem I) (counting n) i (takeIds k) ()
      (fun ids _ s' ↦ s'.drawn i = ids.reverse ++ s.drawn i ∧ ids.length = k) s := by
  induction k generalizing s with
  | zero => exact wp_pure fun s' h _ ↦ ⟨(counting_rely h).1, rfl⟩
  | succ k ih =>
    refine wp_bind hs (wp_mono (wp_uniqueTransactionId hn hs (by omega)) fun id _ s₁ hs₁ hid ↦ ?_)
    have hleft : (s₁.drawn i).length + k ≤ n i := by
      rw [hid, List.length_cons]
      omega
    refine wp_bind hs₁ (wp_mono (ih hs₁ hleft) fun ids _ s₂ _ hids ↦ wp_pure fun s₃ h₃ _ ↦ ?_)
    refine ⟨?_, congrArg (· + 1) hids.2⟩
    rw [(counting_rely h₃).1, hids.1, hid, List.reverse_cons, List.append_assoc]
    rfl

/-! ## Runs -/

variable {start : ℕ} {w : World I Unit IdResponse (IdCounter I) (List ℕ × Unit)}

theorem counting_safe (hstart : start < 2 ^ 32) (hn : ∑ i, n i < 2 ^ 32) :
    Safe (idSem I) (counting n) (fun i r s ↦ s.drawn i = r.1.reverse ∧ r.1.length = n i)
      (idWorld start n) := by
  have hinitial : (⟨start, []⟩ : IdCounter I).Counts n :=
    ⟨hstart, fun _ _ h ↦ absurd h (by simp), Nat.zero_le _, fun _ ↦ Nat.zero_le _⟩
  refine ⟨hinitial, fun i ↦ ?_⟩
  refine wp.mono (wp_takeIds hn hinitial (Nat.zero_add _).le) fun r s _ h ↦ ⟨?_, h.2⟩
  rw [h.1]
  exact List.append_nil _

/-- **Unique ids.** Let the threads of a process take fewer than 2^32 ids altogether, in any
interleaving of their fetches and from any start of the counter. Then the ids of every thread are
distinct, none of them is `UINT32_MAX`, and no two threads have an id in common. -/
theorem transaction_ids_unique (hstart : start < 2 ^ 32) (hn : ∑ i, n i < 2 ^ 32)
    (h : Reachable (idSem I) (idWorld start n) w) {ids : List ℕ}
    (hi : w.client i = .ret (ids, ())) :
    ids.length = n i ∧ ids.Nodup ∧ noTransaction ∉ ids ∧
      ∀ j ids', j ≠ i → w.client j = .ret (ids', ()) → ids.Disjoint ids' := by
  have hsafe := (counting_safe hstart hn).reachable h
  have hdrawn : ∀ {j : I} {ids : List ℕ}, w.client j = .ret (ids, ()) →
      w.shared.drawn j = ids.reverse ∧ ids.length = n j := fun hj ↦ hsafe.ret hj
  have hmem : ∀ {j : I} {ids : List ℕ}, w.client j = .ret (ids, ()) → ∀ v ∈ ids,
      v ∈ w.shared.drawn j := by
    intro j ids hj v hv
    rw [(hdrawn hj).1]
    exact List.mem_reverse.mpr hv
  refine ⟨(hdrawn hi).2, ?_, fun hskipped ↦ ?_, fun j ids' hj hj' v hv hv' ↦ ?_⟩
  · have hnodup := hsafe.shared.drawn_nodup i
    rw [(hdrawn hi).1] at hnodup
    exact List.nodup_reverse.mp hnodup
  · exact (IdCounter.mem_drawn.mp (hmem hi _ hskipped)).2 rfl
  · exact hj (hsafe.shared.drawn_disjoint (hmem hj' v hv') (hmem hi v hv))

/-- Two threads take two ids each, and the counter wraps around. -/
def sampleIdSchedule : List (Fin 2 × Unit) := [(0, ()), (1, ()), (0, ()), (1, ()), (1, ())]

def sampleIdWorld : World (Fin 2) Unit IdResponse (IdCounter (Fin 2)) (List ℕ × Unit) :=
  idWorld (2 ^ 32 - 2) fun _ ↦ 2

/-- The ids that a thread has got when it has ended. -/
def takenIds : Program Unit IdResponse (List ℕ × Unit) → Option (List ℕ)
  | .ret (ids, _) => some ids
  | _ => none

theorem client_eq_of_takenIds {c : Program Unit IdResponse (List ℕ × Unit)} {ids : List ℕ}
    (h : takenIds c = some ids) : c = .ret (ids, ()) := by
  unfold takenIds at h
  split at h
  · obtain rfl := Option.some.inj h
    rfl
  · cases h

theorem transaction_ids_unique_sample :
    ∃ w, sampleIdWorld.run (idService (Fin 2)) (fun _ _ _ _ _ ↦ true) sampleIdSchedule = some w ∧
      w.client 0 = .ret ([2 ^ 32 - 2, 0], ()) ∧ w.client 1 = .ret ([1, 2], ()) ∧
      [2 ^ 32 - 2, 0].length = 2 ∧ [2 ^ 32 - 2, 0].Nodup ∧ noTransaction ∉ [2 ^ 32 - 2, 0] ∧
        ∀ j ids', j ≠ 0 → w.client j = .ret (ids', ()) → [2 ^ 32 - 2, 0].Disjoint ids' := by
  obtain ⟨w, hw, hdone⟩ := (Option.any_eq_true _ _).mp
    (show ((sampleIdWorld.run (idService (Fin 2)) (fun _ _ _ _ _ ↦ true) sampleIdSchedule).any
      fun w ↦ takenIds (w.client 0) = some [2 ^ 32 - 2, 0] ∧ takenIds (w.client 1) = some [1, 2]) =
        true by decide)
  obtain ⟨h₀, h₁⟩ := of_decide_eq_true hdone
  have hclient := client_eq_of_takenIds h₀
  exact ⟨w, hw, hclient, client_eq_of_takenIds h₁,
    transaction_ids_unique (by decide) (by decide) (World.run_sound hw) hclient⟩

end Threads

end LakeVilla
