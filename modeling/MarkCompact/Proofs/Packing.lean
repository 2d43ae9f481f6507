/-
MarkCompact/Proofs/Packing.lean

What next fit leaves.

Objects that are laid out one after the other fill every region they reach from its bottom, and a
region is left only for an object that does not fit in the rest of it (`Heap.Rowed`).

Main result: `rowed_layOut`.
-/
import MarkCompact.Proofs.Lodging

namespace MarkCompact

namespace Heap

variable {h : Heap} {t : ClassTable} {b : Bitmap} {part : List Nat}

/-! ### One object -/

/-- The place that is found lies where the cursor was, or at the bottom of a later region because
the region of the cursor has no room. -/
theorem nextFit_spec {a top v : Address} {words moved : Nat} {is is' : List Nat}
    (hle : words ≤ moved) (hasc : is.Pairwise (· < ·))
    (hfit : h.nextFit a words moved top is = some (v, is')) :
    ∃ k rest, is' = k :: rest ∧ is'.Pairwise (· < ·) ∧
      v.toNat + 8 * (if v = a then words else moved) ≤ (h.layout.regionStop k).toNat ∧
      (is' = is ∧ v = top ∨ v = h.layout.bottom k ∧ ∀ i, is.head? = some i →
        i < k ∧ (h.layout.regionStop i).toNat < top.toNat + 8 * moved) := by
  induction is generalizing top with
  | nil => cases hfit
  | cons i is ih =>
    unfold nextFit at hfit
    by_cases hroom : top.toNat + 8 * (if top = a then words else moved)
        ≤ (h.layout.regionStop i).toNat
    · rw [if_pos hroom] at hfit
      obtain ⟨rfl, rfl⟩ := Prod.mk.inj (Option.some.inj hfit)
      exact ⟨i, is, rfl, hasc, hroom, .inl ⟨rfl, rfl⟩⟩
    · rw [if_neg hroom] at hfit
      obtain ⟨hfirst, hrest⟩ := List.pairwise_cons.1 hasc
      obtain ⟨k, rest, rfl, hasc', hroom', hwhere⟩ := ih hrest hfit
      have hi : (h.layout.regionStop i).toNat < top.toNat + 8 * moved := by
        split at hroom <;> omega
      refine ⟨k, rest, rfl, hasc', hroom', .inr ?_⟩
      rcases hwhere with ⟨rfl, rfl⟩ | ⟨hbottom, hlater⟩
      · refine ⟨rfl, fun j hj => ?_⟩
        obtain rfl := Option.some.inj hj
        exact ⟨hfirst k (by simp), hi⟩
      · refine ⟨hbottom, fun j hj => ?_⟩
        obtain rfl := Option.some.inj hj
        cases is with
        | nil => cases hfit
        | cons j is =>
          exact ⟨(hfirst j (by simp)).trans (hlater j rfl).1, hi⟩

/-! ### Rows -/

/-- The berths fill each region they reach from its bottom, and a region is left only for an
object that does not fit in the rest of it. The cursor is at `v` in the first of the regions
`rest`. -/
structure Rowed (h : Heap) (t : ClassTable) (bs : List Berth) (v : Address) (rest : List Nat) :
    Prop where
  ascending : rest.Pairwise (· < ·)
  behind : ∀ p ∈ bs, p.space ≤ rest.headD 0
  current : bs ≠ [] → ∃ p ∈ bs, p.space = rest.headD 0
  cursor : rest ≠ [] → v.toNat = h.topOf bs (rest.headD 0)
  tiled : ∀ i, Tiles (h.layout.bottom i).toNat (h.topOf bs i)
    ((bs.filter fun p => p.space == i).map Berth.run)
  /-- The first object of a region does not fit in the region used before. -/
  tight : ∀ r ∈ bs, ∃ q ∈ bs, q.space = r.space ∧ q.target = h.layout.bottom r.space ∧
    ∀ p ∈ bs, p.space < r.space → (∀ x ∈ bs, x.space ≤ p.space ∨ r.space ≤ x.space) →
      (h.layout.regionStop p.space).toNat < h.topOf bs p.space + 8 * h.movedWords t q.object

theorem rowed_nil (hasc : part.Pairwise (· < ·)) :
    h.Rowed t [] (h.layout.bottom (part.headD 0)) part :=
  ⟨hasc, by simp, by simp, fun _ => rfl, fun _ => rfl, by simp⟩

/-- Nothing has been placed in a region behind the cursor. -/
theorem topOf_ahead {bs : List Berth} {i : Nat} (hahead : ∀ p ∈ bs, p.space < i) :
    h.topOf bs i = (h.layout.bottom i).toNat :=
  h.topOf_append [] fun p hp => Nat.ne_of_lt (hahead p hp)

/-- The berth `q` is the first one in the region `i`, and its object does not fit in the region used
before. -/
def FirstIn (h : Heap) (t : ClassTable) (bs : List Berth) (q : Berth) (i : Nat) : Prop :=
  q.space = i ∧ q.target = h.layout.bottom i ∧
    ∀ p ∈ bs, p.space < i → (∀ x ∈ bs, x.space ≤ p.space ∨ i ≤ x.space) →
      (h.layout.regionStop p.space).toNat < h.topOf bs p.space + 8 * h.movedWords t q.object

/-- A berth stays the first one of its region when a later one is added. -/
theorem FirstIn.snoc {bs : List Berth} {q : Berth} {i : Nat} (hq : h.FirstIn t bs q i) {r : Berth}
    (hle : i ≤ r.space) : h.FirstIn t (bs ++ [r]) q i := by
  obtain ⟨hspace, hbottom, htight⟩ := hq
  refine ⟨hspace, hbottom, fun p hp hlt hnone => ?_⟩
  rcases List.mem_append.1 hp with hp | hp
  · rw [topOf_snoc, if_neg (show r.space ≠ p.space by omega)]
    exact htight p hp hlt fun x hx => hnone x (List.mem_append_left _ hx)
  · rw [List.mem_singleton.1 hp] at hlt
    exact absurd hlt (Nat.not_lt.2 hle)

/-- A place for one more object: no berth lies behind it, and it is at the top of its region. -/
structure Vacant (h : Heap) (t : ClassTable) (bs : List Berth) (a u : Address) (k : Nat) : Prop where
  room : u.toNat + 8 * h.wordsFrom t a u ≤ (h.layout.regionStop k).toNat
  behind : ∀ p ∈ bs, p.space ≤ k
  top : u.toNat = h.topOf bs k
  /-- If it opens the region, the object does not fit in the one used before. -/
  tight : (∀ r ∈ bs, r.space ≠ k) → ∀ p ∈ bs, (∀ x ∈ bs, x.space ≤ p.space ∨ k ≤ x.space) →
    (h.layout.regionStop p.space).toNat < h.topOf bs p.space + 8 * h.movedWords t a

/-- Where the next object fits first there is a place for it. -/
theorem Rowed.vacant {bs : List Berth} {v a u : Address} {rest is : List Nat}
    (hr : h.Rowed t bs v rest)
    (hfit : h.nextFit a (h.wordsAt t a) (h.movedWords t a) v rest = some (u, is)) :
    ∃ k is', is = k :: is' ∧ is.Pairwise (· < ·) ∧ h.Vacant t bs a u k := by
  obtain ⟨k, is, rfl, hasc, hroom, hwhere⟩ := nextFit_spec (by unfold movedWords; omega)
    hr.ascending hfit
  refine ⟨k, is, rfl, hasc, ?_⟩
  rcases hwhere with ⟨rfl, rfl⟩ | ⟨rfl, hlater⟩
  · -- the region of the cursor, which has been reached if anything has been placed
    refine ⟨hroom, hr.behind, hr.cursor (by simp), fun hused p hp _ => ?_⟩
    obtain ⟨c, hc, hcurrent⟩ := hr.current (List.ne_nil_of_mem hp)
    exact absurd hcurrent (hused c hc)
  · cases rest with
    | nil => cases hfit
    | cons i rest =>
      -- a later region, in which nothing has been placed
      obtain ⟨hik, hfull⟩ := hlater i rfl
      have hbehind : ∀ p ∈ bs, p.space ≤ i := hr.behind
      refine ⟨hroom, fun p hp => (hbehind p hp).trans hik.le,
        (topOf_ahead fun p hp => (hbehind p hp).trans_lt hik).symm, fun _ p hp hnone => ?_⟩
      obtain ⟨c, hc, hcurrent⟩ := hr.current (List.ne_nil_of_mem hp)
      have hcursor := hr.cursor (by simp)
      rw [List.headD_cons] at hcurrent hcursor
      have hpi : p.space = i := by
        have hle := hbehind p hp
        have hnone' := hnone c hc
        omega
      rw [hpi, ← hcursor]
      exact hfull

/-- An object is laid out at such a place. -/
theorem Rowed.snoc {bs : List Berth} {v a u : Address} {rest is : List Nat} {k : Nat}
    (hr : h.Rowed t bs v rest) (hasc : (k :: is).Pairwise (· < ·)) (hv : h.Vacant t bs a u k) :
    h.Rowed t (bs ++ [⟨a, u, h.wordsFrom t a u, k⟩]) (u.nth (h.wordsFrom t a u)) (k :: is) := by
  have hroom := hv.room
  have hlast := (h.layout.regionStop k).toNat_lt
  have hkept : ∀ r ∈ bs, ∃ q ∈ bs ++ [⟨a, u, h.wordsFrom t a u, k⟩],
      h.FirstIn t (bs ++ [⟨a, u, h.wordsFrom t a u, k⟩]) q r.space := by
    intro r hrmem
    obtain ⟨q, hq, hfirst⟩ := hr.tight r hrmem
    exact ⟨q, List.mem_append_left _ hq, FirstIn.snoc hfirst (hv.behind r hrmem)⟩
  refine ⟨hasc, List.forall_mem_append.2 ⟨hv.behind, by simp⟩,
    fun _ => ⟨⟨a, u, h.wordsFrom t a u, k⟩, by simp, rfl⟩, fun _ => ?_, fun i => ?_,
    fun r hrmem => ?_⟩
  · rw [List.headD_cons, topOf_snoc, if_pos rfl]
    exact Address.toNat_nth (by omega)
  · rw [topOf_snoc, List.filter_append, List.map_append]
    by_cases hi : k = i
    · subst hi
      rw [if_pos rfl]
      refine (hr.tiled k).append ?_
      rw [List.filter_cons_of_pos (by simp), List.filter_nil]
      exact ⟨hv.top, by rw [← hv.top]; rfl⟩
    · rw [if_neg hi, List.filter_cons_of_neg (by simpa using hi), List.filter_nil,
        List.map_nil, List.append_nil]
      exact hr.tiled i
  · rcases List.mem_append.1 hrmem with hold | hnew
    · exact hkept r hold
    · obtain rfl := List.mem_singleton.1 hnew
      by_cases hused : ∃ r ∈ bs, r.space = k
      · obtain ⟨r, hold, rfl⟩ := hused
        exact hkept r hold
      · -- the object is the first one of its region
        push Not at hused
        refine ⟨_, by simp, rfl, UInt64.toNat_inj.1 ?_, fun p hp hlt hnone => ?_⟩
        · rw [hv.top]
          exact topOf_ahead fun p hp => Nat.lt_of_le_of_ne (hv.behind p hp) (hused p hp)
        · rcases List.mem_append.1 hp with hp | hp
          · rw [topOf_snoc, if_neg (hused p hp).symm]
            exact hv.tight hused p hp fun x hx => hnone x (List.mem_append_left _ hx)
          · rw [List.mem_singleton.1 hp] at hlt
            exact absurd hlt (Nat.lt_irrefl _)

/-- One more object is laid out. -/
theorem Rowed.layNext {bs : List Berth} {v : Address} {rest : List Nat}
    (hr : h.Rowed t bs v rest) (a : Address) :
    h.Rowed t (h.layNext t (bs, v, rest) a).1 (h.layNext t (bs, v, rest) a).2.1
      (h.layNext t (bs, v, rest) a).2.2 := by
  unfold Heap.layNext
  dsimp only
  cases hfit : h.nextFit a (h.wordsAt t a) (h.movedWords t a) v rest with
  | none => exact hr
  | some found =>
    obtain ⟨u, is⟩ := found
    obtain ⟨k, is, rfl, hasc, hv⟩ := hr.vacant hfit
    exact hr.snoc hasc hv

/-- Laying objects out leaves rows. -/
theorem rowed_layOut (hasc : part.Pairwise (· < ·)) (as : List Address) :
    h.Rowed t (h.layOut t part as).1 (h.layOut t part as).2.1 (h.layOut t part as).2.2 :=
  foldl_induct (f := h.layNext t) (fun _ s => h.Rowed t s.1 s.2.1 s.2.2) as _ (rowed_nil hasc)
    fun _ a _ _ _ hr => hr.layNext a

end Heap

end MarkCompact
