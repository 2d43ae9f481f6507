/-
MarkCompact/Proofs/Loops.lean

Loops that do not fail.

Every phase of a collection is a loop over a list, and may fail at each step.
The one argument for all of them: a property of what has been worked through and
of the state holds at the start, each step goes through and keeps it, so the loop
goes through and it holds at the end (`foldlM_induct`, and `foldl_induct` for
loops that cannot fail).
-/
import Mathlib.Tactic

namespace MarkCompact

variable {σ α β ε : Type}

/-- A loop whose steps go through and keep a property goes through and keeps it. -/
theorem foldlM_induct {f : σ → α → Except ε σ} (p : List α → σ → Prop) (as : List α) (s : σ)
    (hstart : p [] s)
    (hstep : ∀ done a rest s, as = done ++ a :: rest → p done s →
      ∃ s', f s a = .ok s' ∧ p (done ++ [a]) s') :
    ∃ s', as.foldlM f s = .ok s' ∧ p as s' := by
  suffices key : ∀ rest done s, as = done ++ rest → p done s →
      ∃ s', rest.foldlM f s = .ok s' ∧ p as s' from key as [] s rfl hstart
  intro rest
  induction rest with
  | nil =>
    intro done s heq hp
    rw [List.append_nil] at heq
    exact ⟨s, rfl, heq ▸ hp⟩
  | cons a rest ih =>
    intro done s heq hp
    obtain ⟨s1, h1, hp1⟩ := hstep done a rest s heq hp
    obtain ⟨s2, h2, hp2⟩ := ih (done ++ [a]) s1 (by simp [heq]) hp1
    refine ⟨s2, ?_, hp2⟩
    rw [List.foldlM_cons, h1]
    exact h2

/-- A loop whose steps keep a property keeps it. -/
theorem foldl_induct {f : σ → α → σ} (p : List α → σ → Prop) (as : List α) (s : σ)
    (hstart : p [] s)
    (hstep : ∀ done a rest s, as = done ++ a :: rest → p done s → p (done ++ [a]) (f s a)) :
    p as (as.foldl f s) := by
  suffices key : ∀ rest done s, as = done ++ rest → p done s → p as (rest.foldl f s) from
    key as [] s rfl hstart
  intro rest
  induction rest with
  | nil =>
    intro done s heq hp
    rw [List.append_nil] at heq
    exact heq ▸ hp
  | cons a rest ih =>
    intro done s heq hp
    exact ih (done ++ [a]) _ (by simp [heq]) (hstep done a rest s heq hp)

/-- A loop within a loop goes over the inner lists as over one list.  The inner lists are read in
the state, which keeps them. -/
theorem foldlM_flatMap_induct {f : σ → α → Except ε σ} (items : β → List α) (list : σ → β → List α)
    (p : List α → σ → Prop) (bs : List β) (s : σ) (hstart : p [] s)
    (hlist : ∀ done s b, p done s → list s b = items b)
    (hstep : ∀ done a rest s, bs.flatMap items = done ++ a :: rest → p done s →
      ∃ s', f s a = .ok s' ∧ p (done ++ [a]) s') :
    ∃ s', bs.foldlM (fun s b => (list s b).foldlM f s) s = .ok s' ∧ p (bs.flatMap items) s' := by
  refine foldlM_induct (fun bs s => p (bs.flatMap items) s) bs s hstart ?_
  intro before b after s heq hp
  rw [hlist _ _ _ hp, List.flatMap_append, List.flatMap_singleton]
  refine foldlM_induct (fun as s => p (before.flatMap items ++ as) s) (items b) s
    (by rwa [List.append_nil]) ?_
  intro done a rest s heq' hp
  rw [← List.append_assoc]
  refine hstep _ a (rest ++ after.flatMap items) s ?_ hp
  rw [heq, List.flatMap_append, List.flatMap_cons, heq']
  simp only [List.append_assoc, List.cons_append]

/-- What each step of a loop keeps, the loop keeps. -/
theorem foldlM_keeps {f : σ → α → Except ε σ} (p : σ → Prop)
    (hstep : ∀ a s s', p s → f s a = .ok s' → p s') {as : List α} {s s' : σ} (hs : p s)
    (hrun : as.foldlM f s = .ok s') : p s' := by
  induction as generalizing s with
  | nil =>
    obtain rfl : s = s' := Except.ok.inj hrun
    exact hs
  | cons a as ih =>
    rw [List.foldlM_cons] at hrun
    cases hfirst : f s a with
    | error e =>
      rw [hfirst] at hrun
      cases hrun
    | ok s₁ =>
      rw [hfirst] at hrun
      exact ih (hstep a s s₁ hs hfirst) hrun

/-- A step that goes through hands on to the next one. -/
theorem bind_eq_ok {x : Except ε α} {f : α → Except ε β} {a : α} {r : β} (hx : x = .ok a)
    (hf : f a = .ok r) : (x >>= f) = .ok r := by
  rw [hx]
  exact hf

/-- What goes through has a first step that does. -/
theorem exists_of_bind_eq_ok {x : Except ε α} {f : α → Except ε β} {r : β}
    (h : (x >>= f) = .ok r) : ∃ a, x = .ok a ∧ f a = .ok r := by
  cases x with
  | error e => cases h
  | ok a => exact ⟨a, rfl, h⟩

theorem exists_of_map_eq_ok {x : Except ε α} {f : α → β} {r : β} (h : x.map f = .ok r) :
    ∃ a, x = .ok a ∧ f a = r := by
  cases x with
  | error fault => cases h
  | ok a => exact ⟨a, rfl, Except.ok.inj h⟩

theorem mapM_ok {f : α → Except ε β} {g : α → β} {as : List α}
    (h : ∀ a ∈ as, f a = .ok (g a)) : as.mapM f = .ok (as.map g) := by
  induction as with
  | nil => rfl
  | cons a as ih =>
    rw [List.mapM_cons, h a (by simp), ih fun x hx => h x (by simp [hx])]
    rfl

theorem mapM_congr_mem {f g : α → Except ε β} {as : List α} (h : ∀ a ∈ as, f a = g a) :
    as.mapM f = as.mapM g := by
  induction as with
  | nil => rfl
  | cons a as ih =>
    rw [List.mapM_cons, List.mapM_cons, h a (by simp), ih fun x hx => h x (by simp [hx])]

theorem filterMapM_ok {f : α → Except ε (Option β)} {g : α → Option β} {as : List α}
    (h : ∀ a ∈ as, f a = .ok (g a)) : as.filterMapM f = .ok (as.filterMap g) := by
  induction as with
  | nil => rfl
  | cons a as ih =>
    rw [List.filterMapM_cons, h a List.mem_cons_self, ih fun c hc => h c (List.mem_cons_of_mem _ hc)]
    cases hg : g a with
    | none => rw [List.filterMap_cons_none hg]; rfl
    | some y => rw [List.filterMap_cons_some hg]; rfl

theorem array_mapM_ok {f : α → Except ε β} {g : α → β} {as : Array α}
    (h : ∀ a ∈ as.toList, f a = .ok (g a)) : as.mapM f = .ok (as.map g) := by
  rw [Array.mapM_eq_mapM_toList, mapM_ok h]
  show Except.ok (as.toList.map g).toArray = _
  rw [← Array.toList_map, Array.toArray_toList]

/-- Of two members of a list one comes first. -/
theorem eq_or_of_pairwise {α : Type} {R : α → α → Prop} {as : List α} (h : as.Pairwise R) {a c : α}
    (ha : a ∈ as) (hc : c ∈ as) : a = c ∨ R a c ∨ R c a := by
  have hsymm : Std.Symm fun a c => a = c ∨ R a c ∨ R c a :=
    ⟨fun a c hac => hac.imp Eq.symm Or.symm⟩
  exact List.Pairwise.forall_of_forall (R := fun a c => a = c ∨ R a c ∨ R c a)
    (fun _ _ => .inl rfl) (h.imp fun hr => .inr (.inl hr)) ha hc

/-- The members of an ascending list ascend with their positions. -/
theorem pairwise_lt_getElem? {l : List Nat} (h : l.Pairwise (· < ·)) {j k i m : Nat}
    (hj : l[j]? = some i) (hk : l[k]? = some m) (hjk : j < k) : i < m := by
  obtain ⟨hj', rfl⟩ := List.getElem?_eq_some_iff.1 hj
  obtain ⟨hk', rfl⟩ := List.getElem?_eq_some_iff.1 hk
  exact List.pairwise_iff_getElem.1 h j k hj' hk' hjk

/-- A member of an ascending list has one position. -/
theorem position_unique {l : List Nat} (h : l.Pairwise (· < ·)) {j k i : Nat}
    (hj : l[j]? = some i) (hk : l[k]? = some i) : j = k := by
  rcases Nat.lt_trichotomy j k with hlt | heq | hgt
  · exact absurd (pairwise_lt_getElem? h hj hk hlt) (Nat.lt_irrefl _)
  · exact heq
  · exact absurd (pairwise_lt_getElem? h hk hj hgt) (Nat.lt_irrefl _)

/-- The members before a position are the lesser ones. -/
theorem mem_take_iff_lt {l : List Nat} (h : l.Pairwise (· < ·)) {k i j : Nat} (hk : l[k]? = some i)
    (hj : j ∈ l) : j ∈ l.take k ↔ j < i := by
  constructor
  · intro hmem
    obtain ⟨m, hm, rfl⟩ := List.mem_iff_getElem.1 hmem
    rw [List.length_take] at hm
    rw [List.getElem_take]
    exact pairwise_lt_getElem? h (List.getElem?_eq_getElem (by omega)) hk (by omega)
  · intro hlt
    obtain ⟨m, hm, rfl⟩ := List.mem_iff_getElem.1 hj
    refine List.mem_take_iff_getElem.2 ⟨m, ?_, rfl⟩
    rw [Nat.lt_min]
    refine ⟨?_, hm⟩
    by_contra hge
    rcases Nat.eq_or_lt_of_le (Nat.not_lt.1 hge) with rfl | hgt
    · rw [List.getElem?_eq_getElem hm, Option.some.injEq] at hk
      omega
    · have := pairwise_lt_getElem? h hk (List.getElem?_eq_getElem hm) hgt
      omega

theorem mem_take_succ_iff_le {l : List Nat} (h : l.Pairwise (· < ·)) {k i j : Nat}
    (hk : l[k]? = some i) (hj : j ∈ l) : j ∈ l.take (k + 1) ↔ j ≤ i := by
  obtain ⟨hlt, rfl⟩ := List.getElem?_eq_some_iff.1 hk
  rw [List.take_succ_eq_append_getElem hlt, List.mem_append, List.mem_singleton,
    mem_take_iff_lt h hk hj]
  omega

/-- A member of an ascending list is found at its position, also in a part of the list. -/
theorem findIdx?_drop_take {l : List Nat} (h : l.Pairwise (· < ·)) {c k q i : Nat}
    (hq : l[q]? = some i) (hc : c ≤ q) (hk : q < k) :
    ((l.take k).drop c).findIdx? (· == i) = some (q - c) := by
  have hat : ∀ j, j ≤ q - c → ((l.take k).drop c)[j]? = l[c + j]? := by
    intro j hj
    rw [List.getElem?_drop, List.getElem?_take, if_pos (by omega)]
  have hfound := hat (q - c) (Nat.le_refl _)
  rw [Nat.add_sub_cancel' hc, hq] at hfound
  obtain ⟨hlt, heq⟩ := List.getElem?_eq_some_iff.1 hfound
  rw [List.findIdx?_eq_some_iff_getElem]
  refine ⟨hlt, by rw [heq, beq_self_eq_true], ?_⟩
  intro j hj
  have hbefore := hat j hj.le
  rw [List.getElem?_eq_getElem (by omega)] at hbefore
  have hless := pairwise_lt_getElem? h hbefore.symm hq (by omega)
  rw [beq_iff_eq]
  exact hless.ne

end MarkCompact
