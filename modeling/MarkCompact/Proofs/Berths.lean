/-
MarkCompact/Proofs/Berths.lean

Where objects go, as a list.

A `Berth` says where one object goes and how many words it takes there.  Both
styles of collection fill their regions object by object, so both produce a list
of berths in which objects and targets ascend together.  `Berth.Ascending` is
what the list keeps while it grows, with a cursor above all that has been placed;
`Tiles` says that a stretch is filled without gaps.

Main results: `Berth.Ascending.append`, `Berth.tiles_row` (objects laid out one
after the other fill a stretch) and `Berth.mem_row` (where each of them lies).
-/
import MarkCompact.Proofs.Transfers

namespace MarkCompact

/-- Where an object goes. -/
structure Berth where
  object : Address
  target : Address
  /-- The words it takes there. -/
  words : Nat
  /-- The number of the space it goes to. -/
  space : Nat

/-- The runs fill the stretch from `start` to `stop` without gaps. -/
def Tiles : Nat → Nat → List (Address × Nat) → Prop
  | start, stop, [] => start = stop
  | start, stop, (a, words) :: runs => a.toNat = start ∧ Tiles (start + 8 * words) stop runs

theorem Tiles.append {start mid stop : Nat} {runs runs' : List (Address × Nat)}
    (h : Tiles start mid runs) (h' : Tiles mid stop runs') : Tiles start stop (runs ++ runs') := by
  induction runs generalizing start with
  | nil =>
    obtain rfl : start = mid := h
    exact h'
  | cons run runs ih => exact ⟨h.1, ih h.2⟩

theorem Tiles.le {start stop : Nat} {runs : List (Address × Nat)} (h : Tiles start stop runs) :
    start ≤ stop := by
  induction runs generalizing start with
  | nil => exact Nat.le_of_eq h
  | cons run runs ih => exact (Nat.le_add_right ..).trans (ih h.2)

/-- Every run lies in the stretch. -/
theorem Tiles.mem {start stop : Nat} {a : Address} {words : Nat} {runs : List (Address × Nat)}
    (h : Tiles start stop runs) (hmem : (a, words) ∈ runs) :
    start ≤ a.toNat ∧ a.toNat + 8 * words ≤ stop := by
  induction runs generalizing start with
  | nil => simp at hmem
  | cons run runs ih =>
    have hle := h.2.le
    rcases List.mem_cons.1 hmem with rfl | hmem
    · have hat := h.1
      omega
    · obtain ⟨h1, h2⟩ := ih h.2 hmem
      omega

theorem Tiles.aligned {start stop : Nat} {a : Address} {words : Nat} {runs : List (Address × Nat)}
    (h : Tiles start stop runs) (hstart : start % 8 = 0) (hmem : (a, words) ∈ runs) :
    a.toNat % 8 = 0 := by
  induction runs generalizing start with
  | nil => simp at hmem
  | cons run runs ih =>
    rcases List.mem_cons.1 hmem with rfl | hmem
    · rw [h.1]
      exact hstart
    · exact ih h.2 (by omega) hmem

/-- Where a stretch without gaps ends. -/
theorem Tiles.stop_eq {start stop : Nat} {runs : List (Address × Nat)} (h : Tiles start stop runs) :
    stop = start + 8 * (runs.map Prod.snd).sum := by
  induction runs generalizing start with
  | nil => exact h.symm
  | cons run runs ih =>
    have hrest := ih h.2
    rw [List.map_cons, List.sum_cons]
    omega

/-- Each run ends before the next ones begin. -/
theorem Tiles.pairwise {start stop : Nat} {runs : List (Address × Nat)} (h : Tiles start stop runs) :
    runs.Pairwise fun r r' => r.1.toNat + 8 * r.2 ≤ r'.1.toNat := by
  induction runs generalizing start with
  | nil => exact List.Pairwise.nil
  | cons run runs ih =>
    refine List.pairwise_cons.2 ⟨fun r hr => ?_, ih h.2⟩
    rw [h.1]
    exact (h.2.mem hr).1

/-- A run that does not end the stretch is followed by another one. -/
theorem Tiles.exists_next {start stop : Nat} {a : Address} {words : Nat}
    {runs : List (Address × Nat)} (h : Tiles start stop runs) (hmem : (a, words) ∈ runs)
    (hlt : a.toNat + 8 * words < stop) : ∃ r ∈ runs, r.1.toNat = a.toNat + 8 * words := by
  induction runs generalizing start with
  | nil => simp at hmem
  | cons run runs ih =>
    rcases List.mem_cons.1 hmem with rfl | hmem
    · cases runs with
      | nil =>
        have hstart := h.1
        have hstop : start + 8 * words = stop := h.2
        omega
      | cons next runs => exact ⟨next, by simp, by rw [h.2.1, h.1]⟩
    · obtain ⟨r, hr, hat⟩ := ih h.2 hmem
      exact ⟨r, List.mem_cons_of_mem _ hr, hat⟩

namespace Berth

/-- The address after the object at its new place. -/
def stop (p : Berth) : Nat := p.target.toNat + 8 * p.words

/-- The object at its new place. -/
def run (p : Berth) : Address × Nat := (p.target, p.words)

/-- The place that a list of berths has for an object. -/
def placeOf (bs : List Berth) (a : Address) : Address :=
  ((bs.find? fun p => p.object == a).map target).getD a

/-! ### Lists that ascend -/

/-- Objects and targets ascend together, and all targets end below the cursor. -/
structure Ascending (size : Address → Nat) (bs : List Berth) (cursor : Nat) : Prop where
  objects : bs.Pairwise fun p q => p.object.toNat + 8 * size p.object ≤ q.object.toNat
  targets : bs.Pairwise fun p q => p.stop ≤ q.target.toNat
  below : ∀ p ∈ bs, p.stop ≤ cursor

variable {size : Address → Nat} {bs bs' : List Berth} {cursor cursor' : Nat}

theorem ascending_nil (size : Address → Nat) (cursor : Nat) : Ascending size [] cursor :=
  ⟨List.Pairwise.nil, List.Pairwise.nil, by simp⟩

/-- Berths for later objects, from the cursor on. -/
theorem Ascending.append (h : Ascending size bs cursor) (h' : Ascending size bs' cursor')
    (hle : cursor ≤ cursor')
    (hobjects : ∀ p ∈ bs, ∀ q ∈ bs', p.object.toNat + 8 * size p.object ≤ q.object.toNat)
    (hfrom : ∀ q ∈ bs', cursor ≤ q.target.toNat) : Ascending size (bs ++ bs') cursor' := by
  refine ⟨?_, ?_, ?_⟩
  · rw [List.pairwise_append]
    exact ⟨h.objects, h'.objects, hobjects⟩
  · rw [List.pairwise_append]
    exact ⟨h.targets, h'.targets, fun p hp q hq => (h.below p hp).trans (hfrom q hq)⟩
  · intro p hp
    rcases List.mem_append.1 hp with hp | hp
    · exact (h.below p hp).trans hle
    · exact h'.below p hp

/-- Each object has one place. -/
theorem placeOf_of_mem (hnodup : (bs.map object).Nodup) {p : Berth} (hp : p ∈ bs) :
    placeOf bs p.object = p.target := by
  unfold placeOf
  have hfind : bs.find? (fun q => q.object == p.object) = some p := by
    induction bs with
    | nil => simp at hp
    | cons q bs ih =>
      rw [List.map_cons, List.nodup_cons] at hnodup
      rcases List.mem_cons.1 hp with rfl | hp
      · simp
      · have hne : (q.object == p.object) = false := by
          rw [beq_eq_false_iff_ne]
          intro heq
          exact hnodup.1 (heq ▸ List.mem_map_of_mem hp)
        rw [List.find?_cons, hne]
        exact ih hnodup.2 hp
  rw [hfind]
  rfl

theorem placeOf_of_notMem {a : Address} (ha : a ∉ bs.map object) : placeOf bs a = a := by
  unfold placeOf
  have hfind : bs.find? (fun q => q.object == a) = none := by
    rw [List.find?_eq_none]
    intro q hq heq
    exact ha (List.mem_map.2 ⟨q, hq, by simpa using heq⟩)
  rw [hfind]
  rfl

/-! ### Rows -/

/-- Things that lie one behind the other between two places have no more words than fit there. -/
theorem packed_le_of {α : Type} (place size : α → Nat) {as : List α}
    (hasc : as.Pairwise fun a c => place a + 8 * size a ≤ place c) {m n : Nat} (hle : m ≤ n)
    (hin : ∀ a ∈ as, m ≤ place a ∧ place a + 8 * size a ≤ n) :
    m + 8 * (as.map size).sum ≤ n := by
  induction as generalizing m with
  | nil => simpa using hle
  | cons a as ih =>
    obtain ⟨hlt, hasc'⟩ := List.pairwise_cons.1 hasc
    obtain ⟨h1, h2⟩ := hin a (by simp)
    have hrest := ih hasc' h2 fun c hc => ⟨hlt c hc, (hin c (by simp [hc])).2⟩
    rw [List.map_cons, List.sum_cons]
    omega

/-- Objects between two places have no more words than fit there. -/
theorem packed_le {as : List Address} (hasc : as.Pairwise fun a c => a.toNat + 8 * size a ≤ c.toNat)
    {m n : Nat} (hle : m ≤ n) (hin : ∀ a ∈ as, m ≤ a.toNat ∧ a.toNat + 8 * size a ≤ n) :
    m + 8 * (as.map size).sum ≤ n :=
  packed_le_of UInt64.toNat size hasc hle hin

/-- The berths of objects laid out one after the other from `target` on. -/
def row (size : Address → Nat) (space : Nat) : Address → List Address → List Berth
  | _, [] => []
  | target, a :: as => ⟨a, target, size a, space⟩ :: row size space (target.nth (size a)) as

@[simp] theorem map_object_row (size : Address → Nat) (space : Nat) (target : Address)
    (as : List Address) : (row size space target as).map object = as := by
  induction as generalizing target with
  | nil => rfl
  | cons a as ih => simp [row, ih]

@[simp] theorem map_words_row (size : Address → Nat) (space : Nat) (target : Address)
    (as : List Address) : (row size space target as).map words = as.map size := by
  induction as generalizing target with
  | nil => rfl
  | cons a as ih => simp [row, ih]

/-- All objects of a row lie in its space. -/
theorem space_of_mem_row {space : Nat} {target : Address} {as : List Address} {p : Berth}
    (hp : p ∈ row size space target as) : p.space = space := by
  induction as generalizing target with
  | nil => simp [row] at hp
  | cons a as ih =>
    rcases List.mem_cons.1 hp with rfl | hp
    · rfl
    · exact ih hp

/-- The berths of a row that lie in one space: all of them or none. -/
theorem filter_space_row (size : Address → Nat) (space : Nat) (target : Address)
    (as : List Address) (j : Nat) :
    (row size space target as).filter (fun p => p.space == j)
      = if space = j then row size space target as else [] := by
  split
  · rename_i heq
    exact List.filter_eq_self.2 fun p hp => beq_iff_eq.2 ((space_of_mem_row hp).trans heq)
  · rename_i hne
    exact List.filter_eq_nil_iff.2 fun p hp heq =>
      hne ((space_of_mem_row hp).symm.trans (beq_iff_eq.1 heq))

/-- Each object of a row comes after the ones before it. -/
theorem mem_row {space : Nat} {target : Address} {as : List Address} {p : Berth}
    (hp : p ∈ row size space target as) (fits : target.toNat + 8 * (as.map size).sum < 2 ^ 64) :
    p.words = size p.object ∧ p.space = space ∧ ∃ before after, as = before ++ p.object :: after ∧
      p.target = target.nth (before.map size).sum := by
  induction as generalizing target with
  | nil => simp [row] at hp
  | cons a as ih =>
    rw [List.map_cons, List.sum_cons] at fits
    rcases List.mem_cons.1 hp with rfl | hp
    · exact ⟨rfl, rfl, [], as, rfl, by simp⟩
    · have hnext : (target.nth (size a)).toNat = target.toNat + 8 * size a :=
        Address.toNat_nth (by omega)
      obtain ⟨h1, h2, before, after, rfl, h3⟩ := ih hp (by omega)
      refine ⟨h1, h2, a :: before, after, rfl, ?_⟩
      rw [List.map_append, List.sum_append] at fits
      rw [h3, List.map_cons, List.sum_cons, Address.nth_nth (by omega)]

/-- A row fills a stretch without gaps. -/
theorem tiles_row (space : Nat) {target : Address} {as : List Address}
    (fits : target.toNat + 8 * (as.map size).sum < 2 ^ 64) :
    Tiles target.toNat (target.toNat + 8 * (as.map size).sum)
      ((row size space target as).map run) := by
  induction as generalizing target with
  | nil => exact rfl
  | cons a as ih =>
    rw [List.map_cons, List.sum_cons] at fits
    have hnext : (target.nth (size a)).toNat = target.toNat + 8 * size a :=
      Address.toNat_nth (by omega)
    have hrest := @ih (target.nth (size a)) (by omega)
    rw [hnext] at hrest
    refine ⟨rfl, ?_⟩
    rwa [List.map_cons, List.sum_cons, Nat.mul_add, ← Nat.add_assoc]

theorem ascending_row (space : Nat) {target : Address} {as : List Address}
    (fits : target.toNat + 8 * (as.map size).sum < 2 ^ 64)
    (hasc : as.Pairwise fun a c => a.toNat + 8 * size a ≤ c.toNat) :
    Ascending size (row size space target as) (target.toNat + 8 * (as.map size).sum) ∧
      ∀ p ∈ row size space target as, target.toNat ≤ p.target.toNat := by
  have htiles : Tiles target.toNat (target.toNat + 8 * (as.map size).sum)
      ((row size space target as).map run) := tiles_row space fits
  have hin : ∀ p ∈ row size space target as, target.toNat ≤ p.target.toNat ∧
      p.stop ≤ target.toNat + 8 * (as.map size).sum := fun p hp =>
    htiles.mem (List.mem_map_of_mem (f := run) hp)
  refine ⟨⟨?_, ?_, fun p hp => (hin p hp).2⟩, fun p hp => (hin p hp).1⟩
  · have hobj : ((row size space target as).map object).Pairwise
        fun a c => a.toNat + 8 * size a ≤ c.toNat := by
      rw [map_object_row]
      exact hasc
    rwa [List.pairwise_map] at hobj
  · exact List.pairwise_map.1 htiles.pairwise

/-- Objects that lie at or after the start of their row go to the left. -/
theorem row_left {space : Nat} {target : Address} {as : List Address} {p : Berth}
    (hp : p ∈ row size space target as) (fits : target.toNat + 8 * (as.map size).sum < 2 ^ 64)
    (hasc : as.Pairwise fun a c => a.toNat + 8 * size a ≤ c.toNat)
    (hfrom : ∀ a ∈ as, target.toNat ≤ a.toNat) : p.target.toNat ≤ p.object.toNat := by
  obtain ⟨-, -, before, after, hsplit, htarget⟩ := mem_row hp fits
  have hobject : p.object ∈ as := by simp [hsplit]
  rw [hsplit] at hasc
  obtain ⟨hbefore, -, hcross⟩ := List.pairwise_append.1 hasc
  have hpacked := packed_le hbefore (m := target.toNat) (n := p.object.toNat)
    (hfrom _ hobject) fun a ha =>
      ⟨hfrom a (by simp [hsplit, ha]), hcross a ha p.object (by simp)⟩
  have hlt := p.object.toNat_lt
  rw [htarget, Address.toNat_nth (by omega)]
  exact hpacked

end Berth

end MarkCompact
