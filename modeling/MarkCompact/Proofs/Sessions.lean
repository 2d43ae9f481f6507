/-
MarkCompact/Proofs/Sessions.lean

A program and its collector, step by step.

A session is what a running program and its collector share: the heap, the roots, and the
references that the program has in hand besides them.  The program makes objects, stores
references, changes roots, asks for identity hashes and locks objects, in any order and as
often as it likes (`Session.Mutates`); it can name the objects that it can reach, and those that
it has in hand.  A collection may come between any two of its steps (`Session.Collects`).  What
the program wants to see again after a collection it has to leave in a root.

An object is followed through a collection by what refers to it: it is what the same root, or
the same field of the same object, refers to afterwards (`Follows`).  This says nothing of how a
collection works.

Main results: `Session.Run.sound` (over whole runs the heap stays well-formed and the collector
ready), `Relocated.follows_iff` (objects go where the relocation moves them) and
`Session.identityHash_stable` (an identity hash, once asked for, stays the answer).
-/
import MarkCompact.Proofs.Collections

namespace MarkCompact

/-- A running program and its collector. -/
structure Session where
  collector : Collector
  heap : Heap
  roots : Roots
  /-- The references that the program has in hand besides the roots. -/
  held : Roots

namespace Session

/-- The objects that the program can name. -/
def Knows (s : Session) (t : ClassTable) (a : Address) : Prop :=
  Reaches s.heap t (s.roots ++ s.held) a

/-- What the program may store: zero, an address outside the heap, or an object it can name. -/
def MayStore (s : Session) (t : ClassTable) (v : Address) : Prop :=
  v ≠ 0 → s.heap.contains v = true → s.Knows t v

/-- The session with another heap. -/
def withHeap (s : Session) (h : Heap) : Session := { s with heap := h }

/-- The program has in hand what it has made. -/
def made (s : Session) (outcome : Except CompactError Address) (h : Heap) : Session :=
  { s with
    heap := h
    held := match outcome with
      | .ok a => s.held.push a
      | .error _ => s.held }

/-- A step of the program. -/
inductive Mutates (t : ClassTable) (s : Session) : Session → Prop where
  | instantiate {classId : UInt32} {outcome : Except CompactError Address} {h : Heap}
      (run : s.heap.instantiate t classId = .ok (outcome, h)) : Mutates t s (s.made outcome h)
  | instantiateIn {index : Nat} {classId : UInt32} {outcome : Except CompactError Address}
      {h : Heap} (run : s.heap.instantiateIn t index classId = .ok (outcome, h)) :
      Mutates t s (s.made outcome h)
  /-- It reads a reference and keeps it in hand. -/
  | hold {v : Address} (store : s.MayStore t v) : Mutates t s { s with held := s.held.push v }
  | setRoots {roots : Roots} (store : ∀ v ∈ roots.toList, s.MayStore t v) :
      Mutates t s { s with roots := roots }
  | setReference {a : Address} {field : Nat} {v : Word} {h : Heap} (known : s.Knows t a)
      (store : s.MayStore t v) (run : s.heap.setReference t a field v = .ok h) :
      Mutates t s (s.withHeap h)
  | identityHash {a : Address} {hash : UInt32} {h : Heap} (known : s.Knows t a)
      (run : s.heap.identityHash t a = .ok (hash, h)) : Mutates t s (s.withHeap h)
  | stackLock {a : Address} (known : s.Knows t a) : Mutates t s (s.withHeap (s.heap.stackLock a))
  | inflate {a : Address} (known : s.Knows t a) : Mutates t s (s.withHeap (s.heap.inflate a))
  | unlock {a : Address} (known : s.Knows t a) : Mutates t s (s.withHeap (s.heap.unlock a))

/-- A collection, after which the program has nothing in hand besides the roots. -/
inductive Collects (t : ClassTable) (s : Session) : Session → Prop where
  | collect (times : Durations) {r : Collected}
      (run : (s.collector.collect times s.heap t s.roots).outcome = .ok r) :
      Collects t s ⟨r.collector, r.heap, r.roots, #[]⟩

/-- Any number of steps and collections. -/
inductive Run (t : ClassTable) (s : Session) : Session → Prop where
  | start : Run t s s
  | mutate {s₁ s₂ : Session} (before : Run t s s₁) (step : s₁.Mutates t s₂) : Run t s s₂
  | collect {s₁ s₂ : Session} (before : Run t s s₁) (step : s₁.Collects t s₂) : Run t s s₂

/-- A new heap of fewer than `2 ^ 32` words with a collector of it, and classes whose instances
are no larger than the heap. -/
structure Starts (t : ClassTable) (config : Config) (base : Address) (s : Session) : Prop where
  valid : config.Valid
  backed : config.Backed base
  classes : t.Sound
  headers : t.compactHeaders = config.compactHeaders
  few : config.heapBytes.toNat < 8 * 2 ^ 32
  sizes : ∀ c ∈ t.classes, 8 * c.words.toNat ≤ config.heapBytes.toNat
  heap : Heap.new config base = .ok s.heap
  collector : Collector.new config s.heap = .ok (.ok s.collector)
  roots : s.roots = #[]
  held : s.held = #[]

/-- The heap is well-formed with all that the program can name, and the collector is ready. -/
structure Sound (t : ClassTable) (s : Session) : Prop where
  wellFormed : WellFormed s.heap t (s.roots ++ s.held)
  prepared : s.collector.Prepared s.heap
  few : s.heap.layout.heapWords.toNat < 2 ^ 32
  sizes : ∀ c ∈ t.classes, c.words.toNat ≤ s.heap.layout.heapWords.toNat

end Session

/-! ### Fewer roots -/

variable {h h' : Heap} {t : ClassTable} {roots roots' : Roots} {s s' : Session} {a b v : Address}
  {move : Address → Address}

/-- Roots that refer to less reach less. -/
theorem Reaches.mono (hsub : ∀ v ∈ roots.live, h.contains v = true → Reaches h t roots' v)
    (ha : Reaches h t roots a) : Reaches h t roots' a :=
  ha.least hsub fun _ _ _ hb hv => hb.refersTo hv

theorem WellFormed.mono (hw : WellFormed h t roots)
    (hsub : ∀ v ∈ roots'.live, h.contains v = true → Reaches h t roots v) :
    WellFormed h t roots' :=
  (Heap.Mutated.refl hw.settled).wellFormed hw fun _ hb => hb.mono hsub

theorem Roots.mem_live_append : v ∈ Roots.live (roots ++ roots') ↔ v ∈ roots.live ∨ v ∈ roots'.live := by
  simp only [Roots.live, Array.toList_append, List.filter_append, List.mem_append]

theorem Roots.mem_live_push : v ∈ Roots.live (roots.push a) ↔ v ∈ roots.live ∨ v = a ∧ v ≠ 0 := by
  simp only [Roots.live, Array.toList_push, List.filter_append, List.mem_append, List.mem_filter,
    List.mem_singleton, bne_iff_ne, ne_eq]

namespace Session

/-! ### The start -/

/-- There is a heap and a collector for every configuration that the system has memory for. -/
theorem exists_starts {config : Config} {base : Address} (hv : config.Valid)
    (hb : config.Backed base) (ht : t.Sound) (hheaders : t.compactHeaders = config.compactHeaders)
    (hfew : config.heapBytes.toNat < 8 * 2 ^ 32)
    (hsizes : ∀ c ∈ t.classes, 8 * c.words.toNat ≤ config.heapBytes.toNat) :
    ∃ s : Session, s.Starts t config base := by
  obtain ⟨h, hnew, hlayout, hcompact, -, -⟩ := wellFormed_new hv hb ht hheaders
  obtain ⟨c, hc, -⟩ := Collector.exists_new hv
    (Collector.refusal_eq_none_iff.2 ⟨by rw [hlayout], by rw [hlayout], hcompact⟩)
  exact ⟨⟨c, h, #[], #[]⟩, hv, hb, ht, hheaders, hfew, hsizes, hnew, hc, rfl, rfl⟩

theorem Starts.sound {config : Config} {base : Address} (hs : s.Starts t config base) :
    s.Sound t := by
  obtain ⟨h, hnew, hlayout, hheaders, -, hw⟩ :=
    wellFormed_new hs.valid hs.backed hs.classes hs.headers
  obtain rfl : h = s.heap := by
    have := hs.heap
    rw [hnew] at this
    exact Except.ok.inj this
  obtain ⟨c, hc, -, hprepared, -⟩ := Collector.exists_new hs.valid
    (Collector.refusal_eq_none_iff.2 ⟨by rw [hlayout], by rw [hlayout], hheaders⟩)
  obtain rfl : c = s.collector := by
    have := hs.collector
    rw [hc] at this
    exact Except.ok.inj (Except.ok.inj this)
  have hwords := hw.settled.layout.toNat_heapWords
  have hbytes : s.heap.layout.numRegions * s.heap.layout.stride = config.heapBytes.toNat := by
    rw [hlayout, hs.valid.toNat_heapBytes]
    rfl
  have hfew := hs.few
  refine ⟨?_, hprepared, by omega, fun c hc => ?_⟩
  · rw [hs.roots, hs.held]
    exact hw
  · have := hs.sizes c hc
    omega

/-! ### One step -/

/-- What a step of the program leaves. -/
theorem Sound.mutated (hs : s.Sound t) (hcollector : s'.collector = s.collector)
    (hmut : s.heap.Mutated s'.heap t (s.Knows t))
    (hw : WellFormed s'.heap t (s'.roots ++ s'.held)) : s'.Sound t := by
  refine ⟨hw, ?_, ?_, ?_⟩
  · rw [hcollector]
    refine ⟨hs.prepared.toSuits.congr rfl rfl rfl hmut.layout hmut.headers, ?_⟩
    rw [hmut.layout, hmut.headers]
    exact hs.prepared.ready
  · rw [hmut.layout]
    exact hs.few
  · rw [hmut.layout]
    exact hs.sizes

/-- An instance of a class is no larger than the heap, so a request for it is answered. -/
theorem Sound.answered_allocate (hs : s.Sound t) {classId : UInt32} {c : ClassInfo}
    (hc : t.info classId = some c) : s.heap.Answered c.words (s.heap.allocate c.words) :=
  Heap.answered_allocate hs.wellFormed.settled (hs.sizes c (ClassTable.mem_of_info hc))

theorem Sound.answered_allocateIn (hs : s.Sound t) (index : Nat) {classId : UInt32}
    {c : ClassInfo} (hc : t.info classId = some c) :
    s.heap.Answered c.words (s.heap.allocateIn index c.words) :=
  Heap.answered_allocateIn hs.wellFormed.settled index (hs.sizes c (ClassTable.mem_of_info hc))

theorem Sound.made (hs : s.Sound t) {classId : UInt32} {outcome : Except CompactError Address}
    {allocate : WordCount → Except CompactError Address × Heap}
    (hallocate : ∀ c, t.info classId = some c → s.heap.Answered c.words (allocate c.words))
    (hrun : s.heap.instantiateBy t classId allocate = .ok (outcome, h)) :
    (s.made outcome h).Sound t ∧ s.heap.Mutated h t (s.Knows t) ∧
      ∀ b, (s.made outcome h).Knows t b → outcome = .ok b ∨ s.Knows t b := by
  obtain ⟨outcome', h', hrun', -, hmut, hwell⟩ := hs.wellFormed.instantiateBy hs.few hallocate
  obtain ⟨rfl, rfl⟩ : outcome' = outcome ∧ h' = h := by
    rw [hrun] at hrun'
    exact Prod.ext_iff.1 (Except.ok.inj hrun'.symm)
  suffices hlive : ∀ v ∈ Roots.live ((s.made outcome' h').roots ++ (s.made outcome' h').held),
      outcome' = .ok v ∨ v ∈ Roots.live (s.roots ++ s.held) from
    ⟨hs.mutated rfl hmut (hwell _ hlive).1, hmut, (hwell _ hlive).2⟩
  intro v hv
  cases outcome' with
  | error e => exact .inr hv
  | ok a =>
    rcases Roots.mem_live_append.1 hv with hroot | hheld
    · exact .inr (Roots.mem_live_append.2 (.inl hroot))
    · rcases Roots.mem_live_push.1 hheld with hold | ⟨rfl, -⟩
      · exact .inr (Roots.mem_live_append.2 (.inr hold))
      · exact .inl rfl

/-- What the program takes in hand refers to nothing that it cannot name. -/
theorem knows_of_hold (store : s.MayStore t v) {w : Address}
    (hmem : w ∈ Roots.live (s.roots ++ s.held.push v)) (hin : s.heap.contains w = true) :
    s.Knows t w := by
  rcases Roots.mem_live_append.1 hmem with hroot | hheld
  · exact .root (Roots.mem_live_append.2 (.inl hroot)) hin
  · rcases Roots.mem_live_push.1 hheld with hold | ⟨rfl, hne⟩
    · exact .root (Roots.mem_live_append.2 (.inr hold)) hin
    · exact store hne hin

/-- Nor do the roots that it sets. -/
theorem knows_of_setRoots (store : ∀ v ∈ roots.toList, s.MayStore t v) {w : Address}
    (hmem : w ∈ Roots.live (roots ++ s.held)) (hin : s.heap.contains w = true) : s.Knows t w := by
  rcases Roots.mem_live_append.1 hmem with hroot | hheld
  · obtain ⟨hmem, hne⟩ := List.mem_filter.1 hroot
    exact store w hmem (by simpa using hne) hin
  · exact .root (Roots.mem_live_append.2 (.inr hheld)) hin

/-- Every step of the program leaves the objects it can name as they are. -/
theorem Mutates.spec (hm : s.Mutates t s') (hs : s.Sound t) :
    s'.Sound t ∧ s.heap.Mutated s'.heap t (s.Knows t) := by
  have hw := hs.wellFormed
  have hsame : s.heap.Mutated s.heap t (s.Knows t) := .refl hw.settled
  cases hm with
  | instantiate run =>
    obtain ⟨hs', hmut, -⟩ := hs.made (fun c hc => hs.answered_allocate hc) run
    exact ⟨hs', hmut⟩
  | instantiateIn run =>
    obtain ⟨hs', hmut, -⟩ := hs.made (fun c hc => hs.answered_allocateIn _ hc) run
    exact ⟨hs', hmut⟩
  | hold store =>
    exact ⟨hs.mutated rfl hsame (hw.mono fun _ hmem hin => knows_of_hold store hmem hin), hsame⟩
  | setRoots store =>
    exact ⟨hs.mutated rfl hsame (hw.mono fun _ hmem hin => knows_of_setRoots store hmem hin), hsame⟩
  | setReference known store run =>
    obtain ⟨hmut, hw', -⟩ := hw.setReference known store run
    exact ⟨hs.mutated rfl hmut hw', hmut⟩
  | identityHash known run =>
    obtain ⟨_, h', run', hmut, hw', -⟩ := hw.identityHash known
    rw [run] at run'
    obtain ⟨rfl, rfl⟩ := Prod.ext_iff.1 (Except.ok.inj run')
    exact ⟨hs.mutated rfl hmut hw', hmut⟩
  | stackLock known =>
    obtain ⟨hmut, hw', -⟩ := hw.setLock known (show (0b00 : Word) &&& lockMask ≠ 0b11 by decide)
    exact ⟨hs.mutated rfl hmut hw', hmut⟩
  | inflate known =>
    obtain ⟨hmut, hw', -⟩ := hw.setLock known (show (0b10 : Word) &&& lockMask ≠ 0b11 by decide)
    exact ⟨hs.mutated rfl hmut hw', hmut⟩
  | unlock known =>
    obtain ⟨hmut, hw', -⟩ := hw.setLock known (show (0b01 : Word) &&& lockMask ≠ 0b11 by decide)
    exact ⟨hs.mutated rfl hmut hw', hmut⟩

/-- What the roots refer to alone is well-formed, too. -/
theorem Sound.rooted (hs : s.Sound t) : WellFormed s.heap t s.roots :=
  hs.wellFormed.mono fun _ hmem hin => .root (Roots.mem_live_append.2 (.inl hmem)) hin

/-- A collection moves what the roots reach, and the program goes on. -/
theorem Collects.spec (hc : s.Collects t s') (hs : s.Sound t) :
    s'.Sound t ∧ ∃ move, Relocated s.heap t s.roots s'.heap s'.roots move := by
  obtain @⟨times, r, run⟩ := hc
  obtain ⟨r', move, run', hrel, -, hconfig, hprepared⟩ :=
    Collector.collect_relocated times hs.rooted hs.prepared
  obtain rfl : r' = r := by
    rw [run] at run'
    exact (Except.ok.inj run').symm
  refine ⟨⟨?_, hprepared, ?_, ?_⟩, move, hrel⟩
  · have hnone : r'.roots ++ #[] = r'.roots := Array.append_empty
    rw [hnone]
    exact hrel.wellFormed hs.rooted
  · rw [hrel.layout]
    exact hs.few
  · rw [hrel.layout]
    exact hs.sizes

/-- A collection always comes to an end. -/
theorem Sound.exists_collects (hs : s.Sound t) (times : Durations) : ∃ s', s.Collects t s' := by
  obtain ⟨r, run, -⟩ := Collector.collect_ok times hs.rooted hs.prepared
  exact ⟨_, .collect times run⟩

/-! ### Whole runs -/

theorem Run.sound (hrun : Run t s s') (hs : s.Sound t) : s'.Sound t := by
  induction hrun with
  | start => exact hs
  | mutate _ step ih => exact (step.spec ih).1
  | collect _ step ih => exact (step.spec ih).1

end Session

/-! ### Objects and their addresses -/

/-- The object at one address before a collection is the one at another address after it. -/
inductive Follows (h : Heap) (t : ClassTable) (roots : Roots) (h' : Heap) (roots' : Roots) :
    Address → Address → Prop where
  /-- What a root refers to. -/
  | root {i : Nat} {a b : Address} (before : roots[i]? = some a) (after : roots'[i]? = some b)
      (some : a ≠ 0) (inside : h.contains a = true) : Follows h t roots h' roots' a b
  /-- What a field of such an object refers to. -/
  | field {a b : Address} {c : ClassInfo} {f : WordCount}
      (source : Follows h t roots h' roots' a b) (info : h.infoOf t a = .ok c) (mem : f ∈ c.fields)
      (some : h.memory.load (a.offset f) ≠ 0)
      (inside : h.contains (h.memory.load (a.offset f)) = true) :
      Follows h t roots h' roots' (h.memory.load (a.offset f)) (h'.memory.load (b.offset f))

/-- Objects go where the relocation moves them. -/
theorem Relocated.follows_iff (hr : Relocated h t roots h' roots' move) :
    Follows h t roots h' roots' a b ↔ Reaches h t roots a ∧ b = move a := by
  constructor
  · intro hf
    induction hf with
    | @root i a b before after hne inside =>
      rw [hr.follow, Array.getElem?_map, before] at after
      refine ⟨.root (List.mem_filter.2 ⟨?_, by simpa using hne⟩) inside, ?_⟩
      · rw [Array.mem_toList_iff]
        exact Array.mem_of_getElem? before
      · exact (Option.some.inj after).symm
    | @field a b c f _ info mem hne inside ih =>
      obtain ⟨ha, rfl⟩ := ih
      refine ⟨ha.refersTo ⟨c, f, info, mem, rfl, hne, inside⟩, ?_⟩
      exact (hr.object a c ha info).fields f mem
  · rintro ⟨ha, rfl⟩
    refine ha.least (p := fun a => Follows h t roots h' roots' a (move a)) ?_ ?_
    · intro v hv inside
      obtain ⟨hmem, hne⟩ := List.mem_filter.1 hv
      obtain ⟨i, hi, rfl⟩ := List.mem_iff_getElem.1 hmem
      have before : roots[i]? = some roots.toList[i] := by
        rw [← Array.getElem?_toList, List.getElem?_eq_getElem hi]
      refine .root (i := i) before ?_ (by simpa using hne) inside
      rw [hr.follow, Array.getElem?_map, before]
      rfl
    · rintro a v ha hfollows ⟨c, f, info, mem, rfl, hne, inside⟩
      rw [← (hr.object a c ha info).fields f mem]
      exact .field hfollows info mem hne inside

/-! ### Identity hashes -/

/-- The hash of the object has been asked for, and this is the answer. -/
structure Heap.Answers (h : Heap) (t : ClassTable) (a : Address) (hash : UInt32) : Prop where
  hashed : (h.memory.loadMark a).isHashed = true
  answer : (h.identityHash t a).map Prod.fst = .ok hash

namespace Session

variable {hash : UInt32}

/-- The object at `a` in `s` is the one at `b` in `s'`, and it could be reached all the time. -/
inductive Tracks (t : ClassTable) (s : Session) (a : Address) : Session → Address → Prop where
  | start (known : s.Knows t a) : Tracks t s a s a
  | mutate {s₁ s₂ : Session} {b : Address} (before : Tracks t s a s₁ b)
      (step : s₁.Mutates t s₂) (known : s₂.Knows t b) : Tracks t s a s₂ b
  | collect {s₁ s₂ : Session} {b b' : Address} (before : Tracks t s a s₁ b)
      (step : s₁.Collects t s₂)
      (follows : Follows s₁.heap t s₁.roots s₂.heap s₂.roots b b') : Tracks t s a s₂ b'

/-- A step of the program does not change the answer. -/
theorem Mutates.answers (hm : s.Mutates t s') (hs : s.Sound t) (ha : s.Knows t a)
    (hhash : s.heap.Answers t a hash) : s'.heap.Answers t a hash := by
  obtain ⟨-, hmut⟩ := hm.spec hs
  obtain ⟨c, words, ho⟩ := hs.wellFormed.object ha
  exact ⟨(hmut.kept a ha).hashed hhash.hashed,
    (hmut.hash ha ho.size hhash.hashed).trans hhash.answer⟩

/-- A collection does not change the answer either. -/
theorem Collects.answers (hc : s.Collects t s') (hs : s.Sound t)
    (hf : Follows s.heap t s.roots s'.heap s'.roots a b) (hhash : s.heap.Answers t a hash) :
    s'.Knows t b ∧ s'.heap.Answers t b hash := by
  obtain ⟨-, move, hrel⟩ := hc.spec hs
  obtain ⟨ha, rfl⟩ := hrel.follows_iff.1 hf
  obtain ⟨c, words, ho⟩ := hs.rooted.object ha
  have hre := hrel.object a c ha ho.info
  refine ⟨?_, hre.hashed.trans hhash.hashed, (hre.identity hhash.hashed).trans hhash.answer⟩
  refine ((hrel.reaches_iff hs.rooted).2 ⟨a, ha, rfl⟩).mono fun v hv hin => ?_
  exact .root (Roots.mem_live_append.2 (.inl hv)) hin

theorem Tracks.answers (htrack : Tracks t s a s' b) (hs : s.Sound t)
    (hhash : s.heap.Answers t a hash) :
    s'.Sound t ∧ s'.Knows t b ∧ s'.heap.Answers t b hash := by
  induction htrack with
  | start known => exact ⟨hs, known, hhash⟩
  | mutate _ step known ih =>
    obtain ⟨hs₁, ha₁, hhash₁⟩ := ih
    exact ⟨(step.spec hs₁).1, known, step.answers hs₁ ha₁ hhash₁⟩
  | collect _ step follows ih =>
    obtain ⟨hs₁, ha₁, hhash₁⟩ := ih
    exact ⟨(step.spec hs₁).1, step.answers hs₁ follows hhash₁⟩

/-- Once an identity hash has been asked for, it is the answer to every later request, wherever
the object has gone in between. -/
theorem identityHash_stable {config : Config} {base : Address} {s₀ : Session}
    (hstart : s₀.Starts t config base) (hrun : Run t s₀ s) (ha : s.Knows t a)
    (hask : s.heap.identityHash t a = .ok (hash, h)) (htrack : Tracks t (s.withHeap h) a s' b) :
    ∃ h', s'.heap.identityHash t b = .ok (hash, h') := by
  have hs := hrun.sound hstart.sound
  have hs₁ := ((Mutates.identityHash ha hask).spec hs).1
  -- the request itself notes that the hash has been asked for
  obtain ⟨hash', h₁, hask', -, -, -, hhashed, hagain⟩ := hs.wellFormed.identityHash ha
  obtain ⟨rfl, rfl⟩ : hash = hash' ∧ h = h₁ := by
    rw [hask] at hask'
    exact Prod.ext_iff.1 (Except.ok.inj hask')
  obtain ⟨-, -, -, hanswer⟩ := htrack.answers hs₁ ⟨hhashed, hagain⟩
  cases hlast : s'.heap.identityHash t b with
  | error fault =>
    rw [hlast] at hanswer
    cases hanswer
  | ok answer =>
    rw [hlast] at hanswer
    obtain rfl : answer.1 = hash := Except.ok.inj hanswer
    exact ⟨answer.2, rfl⟩

/-! ### A short run -/

/-- Runs that leave an object in a root. -/
theorem exists_run {config : Config} {base : Address} (hv : config.Valid)
    (hb : config.Backed base) (hfew : config.heapBytes.toNat < 8 * 2 ^ 32) :
    ∃ t s₀ s a, Starts t config base s₀ ∧ Run t s₀ s ∧ s.roots = #[a] ∧ a ≠ 0 ∧
      s.heap.contains a = true := by
  let node : ClassInfo := ⟨"Node", 4, [2]⟩
  have hnode : (ClassTable.empty config.compactHeaders).register node
      = .ok (0, ⟨config.compactHeaders, #[node]⟩) := by
    cases config.compactHeaders <;> rfl
  generalize ht' : (⟨config.compactHeaders, #[node]⟩ : ClassTable) = t at hnode
  have ht := ClassTable.sound_register (ClassTable.sound_empty _) hnode
  have hheaders : t.compactHeaders = config.compactHeaders := by rw [← ht']
  have hclasses : t.classes = #[node] := by rw [← ht']
  have hinfo : t.info 0 = some node := by rw [← ht']; rfl
  have hpow : 2 ^ 4 ≤ 2 ^ config.regionShift.toNat :=
    Nat.pow_le_pow_right (by decide) (UInt32.le_iff_toNat_le.1 hv.regionShift.1)
  have hbytes := hv.toNat_heapBytes
  have hone := Nat.mul_le_mul_right (8 * 2 ^ config.regionShift.toNat) hv.numRegions_pos
  have hnodeWords : node.words.toNat = 4 := rfl
  obtain ⟨h, hnew, hlayout, -, hregions, hw⟩ := wellFormed_new hv hb ht hheaders
  obtain ⟨s₀, hstart⟩ := exists_starts hv hb ht hheaders hfew fun c hc => by
    obtain rfl : c = node := by simpa [hclasses] using hc
    omega
  obtain rfl : h = s₀.heap := by
    have hheap := hstart.heap
    rw [hnew] at hheap
    exact Except.ok.inj hheap
  have hregion : 0 < s₀.heap.layout.numRegions := by
    rw [hlayout]
    exact hv.numRegions_pos
  have hstride : s₀.heap.layout.stride = 8 * 2 ^ config.regionShift.toNat := by
    rw [hlayout]
    rfl
  obtain ⟨h', hmade, hmut, -⟩ := hw.instantiate_new hstart.sound.few hregions hregion hinfo
    (by omega)
  obtain ⟨hne, hin⟩ := hw.mapped.contains_bottom hw.settled.layout hregion
  rw [← hmut.contains] at hin
  -- the object is in hand before it is in a root
  have hheld : (s₀.made (.ok (s₀.heap.layout.bottom 0)) h').MayStore t (s₀.heap.layout.bottom 0) :=
    fun _ _ => .root (Roots.mem_live_append.2 (.inr (Roots.mem_live_push.2 (.inr ⟨rfl, hne⟩)))) hin
  refine ⟨t, s₀, _, s₀.heap.layout.bottom 0, hstart,
    .mutate (.mutate .start (.instantiate hmade)) (.setRoots ?_), rfl, hne, hin⟩
  intro v hmem
  obtain rfl : v = s₀.heap.layout.bottom 0 := List.mem_singleton.1 hmem
  exact hheld

/-- A run in which an object is asked for its hash, is locked and then collected. -/
theorem identityHash_stable_locked : ∃ (t : ClassTable) (config : Config) (base : Address)
    (s₀ s s' : Session) (a b : Address) (hash : UInt32) (h : Heap),
    s₀.Starts t config base ∧ config.compactHeaders = true ∧ Run t s₀ s ∧ s.Knows t a ∧
      s.heap.identityHash t a = .ok (hash, h) ∧ Tracks t (s.withHeap h) a s' b ∧
      ∃ h', s'.heap.identityHash t b = .ok (hash, h') := by
  let config : Config :=
    { compactHeaders := true, forwarding := some .hashed, regionShift := 4, numRegions := 4,
      blockShift := 2 }
  have hv : config.Valid := by decide
  have hb : config.Backed 0x10000 := by decide
  obtain ⟨t, s₀, s, a, hstart, hrun, hroots, hne, hin⟩ := exists_run hv hb (by decide)
  have hs := hrun.sound hstart.sound
  -- as long as it is in the root, the program can name the object
  have hknown : ∀ s' : Session, s'.roots = #[a] → s'.heap.contains a = true → s'.Knows t a := by
    intro s' hroots hin
    refine .root (Roots.mem_live_append.2 (.inl ?_)) hin
    rw [hroots]
    exact List.mem_filter.2 ⟨by simp, by simpa using hne⟩
  have ha := hknown s hroots hin
  obtain ⟨hash, h, hask, hmut, -⟩ := hs.wellFormed.identityHash ha
  have hs₁ := ((Mutates.identityHash ha hask).spec hs).1
  have hin₁ : (s.withHeap h).heap.contains a = true := by
    rw [← hin]
    exact hmut.contains a
  have ha₁ := hknown (s.withHeap h) hroots hin₁
  have hlock := Mutates.stackLock ha₁
  obtain ⟨hs₂, hmut₂⟩ := hlock.spec hs₁
  have hin₂ := (hmut₂.contains a).trans hin₁
  have ha₂ := hknown ((s.withHeap h).withHeap (h.stackLock a)) hroots hin₂
  obtain ⟨s', hcollect⟩ := hs₂.exists_collects ⟨fun _ => 0, 0⟩
  obtain ⟨-, move, hrel⟩ := hcollect.spec hs₂
  have htrack : Tracks t (s.withHeap h) a s' (move a) := by
    refine .collect (.mutate (.start ha₁) hlock ha₂) hcollect (hrel.follows_iff.2 ⟨?_, rfl⟩)
    refine .root ?_ hin₂
    show a ∈ Roots.live s.roots
    rw [hroots]
    exact List.mem_filter.2 ⟨by simp, by simpa using hne⟩
  exact ⟨t, config, 0x10000, s₀, s, s', a, move a, hash, h, hstart, rfl, hrun, ha, hask, htrack,
    identityHash_stable hstart hrun ha hask htrack⟩

end Session

end MarkCompact
