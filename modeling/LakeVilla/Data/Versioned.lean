import Mathlib.Data.List.MinMax
import Mathlib.Order.Basic

/-!
# Registers that keep the newest version

A register receives writes that carry a version. A write of an older version is dropped, a write of
a newer one replaces the value, and writes of one version are combined in the order in which they
arrive. Threads that each handle whole versions may then apply their writes in any order: the value
depends only on the writes of the newest version (`run_eq`, `run_congr`).
-/

namespace Versioned

variable {V A B C : Type} [LinearOrder V]

/-! ## Writes in any order -/

/-- The writes of version `v`. -/
def ofVersion (v : V) (es : List (V × B)) : List (V × B) := es.filter fun e ↦ e.1 = v

/-- Two lists make the same writes of every version, in the same order. -/
def SameVersions (es es' : List (V × B)) : Prop := ∀ v, ofVersion v es = ofVersion v es'

theorem mem_ofVersion {v : V} {e : V × B} {es : List (V × B)} :
    e ∈ ofVersion v es ↔ e ∈ es ∧ e.1 = v := by
  simp [ofVersion]

@[simp] theorem ofVersion_append (v : V) (es es' : List (V × B)) :
    ofVersion v (es ++ es') = ofVersion v es ++ ofVersion v es' := List.filter_append ..

namespace SameVersions

variable {es es' : List (V × B)}

theorem mem (h : SameVersions es es') {e : V × B} : e ∈ es ↔ e ∈ es' := by
  have hm : ∀ l : List (V × B), e ∈ l ↔ e ∈ ofVersion e.1 l := fun l ↦ by simp [mem_ofVersion]
  rw [hm es, hm es', h e.1]

/-- Parts that have no version in common may be exchanged. -/
theorem swap (h : ∀ e ∈ es, ∀ e' ∈ es', e.1 ≠ e'.1) : SameVersions (es ++ es') (es' ++ es) := by
  intro v
  rw [ofVersion_append, ofVersion_append]
  by_cases hv : ofVersion v es = []
  · rw [hv, List.nil_append, List.append_nil]
  · obtain ⟨e, he⟩ := List.exists_mem_of_ne_nil _ hv
    obtain ⟨hmem, rfl⟩ := mem_ofVersion.mp he
    have hnil : ofVersion e.1 es' = [] := by
      refine List.filter_eq_nil_iff.mpr fun e' he' ↦ ?_
      simpa using (h e hmem e' he').symm
    rw [hnil, List.nil_append, List.append_nil]

theorem append {es₁ es₁' : List (V × B)} (h : SameVersions es es') (h₁ : SameVersions es₁ es₁') :
    SameVersions (es ++ es₁) (es' ++ es₁') := fun v ↦ by
  rw [ofVersion_append, ofVersion_append, h v, h₁ v]

/-- Parts of different versions may come in any order. -/
theorem flatMap_perm {U : Type} {g : U → List (V × B)} {us us' : List U} (h : us.Perm us')
    (hg : us.Pairwise fun u u' ↦ ∀ e ∈ g u, ∀ e' ∈ g u', e.1 ≠ e'.1) :
    SameVersions (us.flatMap g) (us'.flatMap g) := by
  induction h with
  | nil => exact fun _ ↦ rfl
  | cons u _ ih =>
    rw [List.flatMap_cons, List.flatMap_cons]
    exact append (fun _ ↦ rfl) (ih (List.pairwise_cons.mp hg).2)
  | swap u u' us =>
    have hne := (List.pairwise_cons.mp hg).1 u List.mem_cons_self
    simp only [List.flatMap_cons, ← List.append_assoc]
    exact append (swap hne) fun _ ↦ rfl
  | trans h₁ _ ih₁ ih₂ =>
    have hsymm : ∀ {u u'}, (∀ e ∈ g u, ∀ e' ∈ g u', e.1 ≠ e'.1) →
        ∀ e ∈ g u', ∀ e' ∈ g u, e.1 ≠ e'.1 := fun h e he e' he' ↦ (h e' he' e he).symm
    exact fun v ↦ (ih₁ hg v).trans (ih₂ ((h₁.pairwise_iff hsymm).mp hg) v)

/-- The writes to one of several registers. -/
theorem filterMap (h : SameVersions es es') (f : B → Option C) :
    SameVersions (es.filterMap fun e ↦ (f e.2).map (Prod.mk e.1))
      (es'.filterMap fun e ↦ (f e.2).map (Prod.mk e.1)) := by
  have hcomm : ∀ (v : V) (l : List (V × B)),
      ofVersion v (l.filterMap fun e ↦ (f e.2).map (Prod.mk e.1)) =
        (ofVersion v l).filterMap fun e ↦ (f e.2).map (Prod.mk e.1) := by
    intro v l
    induction l with
    | nil => rfl
    | cons e l ih =>
      unfold ofVersion at ih ⊢
      cases hf : f e.2 with
      | none =>
        rw [List.filterMap_cons_none (by simp [hf]), ih, List.filter_cons]
        split
        · rw [List.filterMap_cons_none (by simp [hf])]
        · rfl
      | some b =>
        rw [List.filterMap_cons_some (by simp [hf]; rfl), List.filter_cons, List.filter_cons, ih]
        split
        · rw [List.filterMap_cons_some (by simp [hf]; rfl)]
        · rfl
  intro v
  rw [hcomm, hcomm, h v]

end SameVersions

/-! ## Registers -/

section Registers

variable (start : B → A) (again : A → B → A)

/-- One write: `start` makes the value of the first write of a version, `again` combines it with
the next one. -/
def write (x : Option (V × A)) (e : V × B) : Option (V × A) :=
  match x with
  | none => some (e.1, start e.2)
  | some (u, a) =>
    if e.1 < u then some (u, a)
    else if e.1 = u then some (u, again a e.2)
    else some (e.1, start e.2)

def run (x : Option (V × A)) (es : List (V × B)) : Option (V × A) := es.foldl (write start again) x

/-- The value after the writes of one version. -/
def value : List (V × B) → Option A
  | [] => none
  | e :: es => some (es.foldl (fun a e ↦ again a e.2) (start e.2))

variable {start again}

@[simp] theorem run_append (x : Option (V × A)) (es es' : List (V × B)) :
    run start again x (es ++ es') = run start again (run start again x es) es' :=
  List.foldl_append ..

omit [LinearOrder V] in
theorem value_concat {es : List (V × B)} {a : A} (h : value start again es = some a) (e : V × B) :
    value start again (es ++ [e]) = some (again a e.2) := by
  cases es with
  | nil => cases h
  | cons e₁ es =>
    obtain rfl := Option.some.inj h
    simp [value]

/-- **The newest version wins.** A register holds the newest version that was written, with the
value that the writes of this version make. -/
theorem run_eq (start : B → A) (again : A → B → A) (es : List (V × B)) :
    (run start again none es = none ∧ es = []) ∨
      ∃ w a, run start again none es = some (w, a) ∧
        value start again (ofVersion w es) = some a ∧ ∀ e ∈ es, e.1 ≤ w := by
  induction es using List.reverseRecOn with
  | nil => exact .inl ⟨rfl, rfl⟩
  | append_singleton es e ih =>
    refine .inr ?_
    rw [run_append]
    rcases ih with ⟨hr, rfl⟩ | ⟨w, a, hr, hv, hle⟩
    · exact ⟨e.1, start e.2, by rw [hr]; rfl, by simp [ofVersion, value], by simp⟩
    · rw [hr]
      have hmem : ∀ e' ∈ es ++ [e], e'.1 ≤ max w e.1 := by
        intro e' he'
        rcases List.mem_append.mp he' with he' | he'
        · exact (hle e' he').trans (le_max_left _ _)
        · rw [List.mem_singleton.mp he']
          exact le_max_right _ _
      rcases lt_trichotomy e.1 w with h | h | h
      · -- an older version
        refine ⟨w, a, by simp [run, write, h], ?_, max_eq_left h.le ▸ hmem⟩
        simpa [ofVersion, h.ne] using hv
      · -- one more write of the newest version
        refine ⟨w, again a e.2, by simp [run, write, h], ?_, max_eq_left h.le ▸ hmem⟩
        have := value_concat hv e
        simpa [ofVersion, h] using this
      · -- a new version
        refine ⟨e.1, start e.2, by simp [run, write, h.not_gt, h.ne'], ?_, max_eq_right h.le ▸ hmem⟩
        have hnone : ofVersion e.1 es = [] := by
          refine List.filter_eq_nil_iff.mpr fun e' he' ↦ ?_
          simpa using ((hle e' he').trans_lt h).ne
        rw [ofVersion_append, hnone]
        simp [ofVersion, value]

theorem run_version_mem {es : List (V × B)} {w : V} {a : A}
    (h : run start again none es = some (w, a)) : ∃ e ∈ es, e.1 = w := by
  rcases run_eq start again es with ⟨hr, -⟩ | ⟨w', a', hr, hv, -⟩
  · rw [hr] at h
    cases h
  · obtain ⟨rfl, rfl⟩ := Prod.mk.inj (Option.some.inj (hr.symm.trans h))
    cases hw : ofVersion w' es with
    | nil => simp [hw, value] at hv
    | cons e _ =>
      have he : e ∈ ofVersion w' es := hw ▸ List.mem_cons_self
      exact ⟨e, mem_ofVersion.mp he⟩

/-- **The order of the versions does not matter.** -/
theorem run_congr {es es' : List (V × B)} (h : SameVersions es es') :
    run start again none es = run start again none es' := by
  rcases run_eq start again es with ⟨hr, rfl⟩ | ⟨w, a, hr, hv, hle⟩
  · have : es' = [] := List.eq_nil_iff_forall_not_mem.mpr fun e he ↦
      List.not_mem_nil (h.mem.mpr he)
    rw [this]
  · rcases run_eq start again es' with ⟨-, rfl⟩ | ⟨w', a', hr', hv', hle'⟩
    · have : ofVersion w es = [] := h w
      simp [this, value] at hv
    · obtain ⟨e, he, rfl⟩ := run_version_mem hr
      obtain ⟨e', he', rfl⟩ := run_version_mem hr'
      have hw : e.1 = e'.1 := le_antisymm (hle' e (h.mem.mp he)) (hle e' (h.mem.mpr he'))
      rw [hr, hr', hw]
      rw [h e.1, hw, hv'] at hv
      rw [Option.some.inj hv]

/-! ## What readers see -/

/-- What a register shows, if only a part `see` of its value can be seen. -/
def shown (see : A → Option C) (x : Option (V × A)) : Option C := x.bind fun e ↦ see e.2

/-- Two registers are alike for the versions after `c`: they are equal, or they show the same and
hold nothing newer than `c`. -/
def AlikeAfter (c : V) (see : A → Option C) (x y : Option (V × A)) : Prop :=
  x = y ∨ shown see x = shown see y ∧ (∀ e ∈ x, e.1 ≤ c) ∧ ∀ e ∈ y, e.1 ≤ c

theorem AlikeAfter.shown_eq {c : V} {see : A → Option C} {x y : Option (V × A)}
    (h : AlikeAfter c see x y) : shown see x = shown see y := by
  rcases h with rfl | h
  · rfl
  · exact h.1

theorem write_newer {c : V} {x : Option (V × A)} {e : V × B} (h : ∀ e ∈ x, e.1 ≤ c)
    (he : c < e.1) : write start again x e = some (e.1, start e.2) := by
  cases x with
  | none => rfl
  | some x =>
    have hlt := (h x rfl).trans_lt he
    rw [write, if_neg hlt.not_gt, if_neg hlt.ne']

/-- Writes of later versions cannot tell alike registers apart. -/
theorem AlikeAfter.run {c : V} {see : A → Option C} {x y : Option (V × A)}
    (h : AlikeAfter c see x y) {es : List (V × B)} (hes : ∀ e ∈ es, c < e.1) :
    AlikeAfter c see (run start again x es) (run start again y es) := by
  induction es generalizing x y with
  | nil => exact h
  | cons e es ih =>
    refine ih ?_ fun e' he' ↦ hes e' (List.mem_cons_of_mem _ he')
    rcases h with rfl | ⟨-, hx, hy⟩
    · exact .inl rfl
    · have he := hes e List.mem_cons_self
      exact .inl ((write_newer hx he).trans (write_newer hy he).symm)

end Registers

/-! ## Registers of a larger state -/

/-- A register that is a part of a state: `get` finds it, and of every event `writes` is what is
written to it, if anything. Readers see the part `see` of its value. -/
structure Register {S E V : Type} [LinearOrder V] (perform : S → V × E → S) (C : Type) where
  {A B : Type}
  start : B → A
  again : A → B → A
  see : A → Option C
  get : S → Option (V × A)
  writes : E → Option B
  get_perform : ∀ s e, get (perform s e) =
    (writes e.2).elim (get s) fun b ↦ write start again (get s) (e.1, b)

namespace Register

variable {S E : Type} {perform : S → V × E → S} (r : Register perform C)

/-- The writes to the register among some events. -/
def log (es : List (V × E)) : List (V × r.B) :=
  es.filterMap fun e ↦ (r.writes e.2).map (Prod.mk e.1)

def shows (s : S) : Option C := shown r.see (r.get s)

/-- The register holds nothing newer than `c`. -/
def Until (c : V) (s : S) : Prop := ∀ x ∈ r.get s, x.1 ≤ c

variable {r} {s s' : S} {es es' : List (V × E)} {c : V}

theorem get_foldl (s : S) (es : List (V × E)) :
    r.get (es.foldl perform s) = run r.start r.again (r.get s) (r.log es) := by
  induction es generalizing s with
  | nil => rfl
  | cons e es ih =>
    rw [List.foldl_cons, ih, r.get_perform]
    unfold log
    cases hw : r.writes e.2 with
    | none => rw [List.filterMap_cons_none (by simp [hw]), Option.elim_none]
    | some b => rw [List.filterMap_cons_some (by simp [hw]; rfl)]; rfl

theorem log_version (v : V) (es : List E) :
    r.log (es.map (Prod.mk v)) = (es.filterMap r.writes).map (Prod.mk v) := by
  rw [log, List.filterMap_map, List.map_filterMap]
  rfl

/-- Events of different versions may come in any order. -/
theorem shows_congr (hs : r.get s = none) (h : SameVersions es es') :
    r.shows (es.foldl perform s) = r.shows (es'.foldl perform s) := by
  rw [shows, shows, get_foldl, get_foldl, hs]
  exact congrArg (shown r.see) (run_congr (h.filterMap r.writes))

theorem until_foldl (hs : r.get s = none) (h : ∀ e ∈ es, e.1 ≤ c) :
    r.Until c (es.foldl perform s) := by
  intro x hx
  rw [get_foldl, hs] at hx
  obtain ⟨e, he, hex⟩ := run_version_mem (Option.mem_def.mp hx)
  obtain ⟨e', he', hw⟩ := List.mem_filterMap.mp he
  obtain ⟨b, -, rfl⟩ := Option.map_eq_some_iff.mp hw
  exact hex ▸ h e' he'

/-- Events of later versions do to one state what they do to another that shows the same. -/
theorem shows_resume (h : r.shows s = r.shows s') (hs : r.Until c s) (hs' : r.Until c s')
    (hes : ∀ e ∈ es, c < e.1) : r.shows (es.foldl perform s) = r.shows (es.foldl perform s') := by
  rw [shows, shows, get_foldl, get_foldl]
  refine (AlikeAfter.run (.inr ⟨h, hs, hs'⟩) fun e he ↦ ?_).shown_eq
  obtain ⟨e', he', hw⟩ := List.mem_filterMap.mp he
  obtain ⟨b, -, rfl⟩ := Option.map_eq_some_iff.mp hw
  exact hes e' he'

end Register

end Versioned
