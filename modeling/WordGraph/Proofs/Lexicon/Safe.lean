import Mathlib
import WordGraph.Proofs.Automaton.Builder
import WordGraph.Proofs.Dump.Refusal
import WordGraph.Proofs.Lexicon.Alike
import WordGraph.Proofs.Lexicon.Session
import WordGraph.Proofs.Lexicon.Snapshot

/-!
# Nothing that a lexicon relies on fails

Whatever operations have led to a lexicon, the next one finds all that it relies on: every identifier
that it comes across names a state, every edge is pointed at a state, the path is settled from a
depth that it has, its start is never taken off, and a state is looked up or registered when its
children are the registered states of their kinds. What can go wrong is that the slots or the counts
run out.

* `Keeps` — the identifiers that a lexicon keeps
* `Answers` — every question has an answer
* `Safe` — every operation runs through, up to its limits
* `Reachable.safe` — a lexicon is safe, however it came about
-/

namespace WordGraph

open Arena Automaton

variable {σ : Type} [Symbol σ]

namespace Lexicon

variable {l m : Lexicon σ} {s t : StateId} {c : σ} {w : Word σ} {f : Fault} {g : Automaton σ}
  {p : Fingerprint σ}

/-! ## Questions -/

/-- Every question to a lexicon has an answer. -/
structure Answers (l : Lexicon σ) : Prop where
  contains : ∀ w, ∃ b, l.contains w = .ok b
  hasPrefix : ∀ w, ∃ b, l.hasPrefix w = .ok b
  longestPrefix : ∀ w, ∃ n, l.longestPrefix w = .ok n
  place : ∀ w, ∃ p, l.place? w = .ok p
  numbering : ∃ n l', l.numbering.result = .ok (n, l')
  rank : ∀ w, ∃ n l', (l.rank w).result = .ok (n, l')
  unrank : ∀ i, ∃ w l', (l.unrank i).result = .ok (w, l')
  words : ∃ ws, l.words = .ok ws
  find : ∀ p, ∃ ws, (l.find p).words l.arena = .ok ws
  /-- The words that fit a pattern can also be had in portions. -/
  take : ∀ p n, ∃ ws t, (l.find p).take l.arena n = .ok (ws, t)
  hashInput : ∃ input, l.hashInput = .ok input
  snapshot : ∃ g, l.snapshot = .ok g
  statistics : ∃ n, l.statistics = .ok n

/-- A word leads somewhere or not. -/
theorem Valid.exists_place (h : l.Valid) (w : Word σ) : ∃ p, l.place? w = .ok p := by
  have hintact := h.sound.dag_root.intact
  obtain ⟨n, s, hwalk, -, hp, -⟩ := exists_walk hintact w
  obtain ⟨x, hx⟩ := isLive_iff.1 (hintact s ⟨_, hp⟩)
  rw [place?, hwalk, ok_bind]
  dsimp only
  split
  · exact ⟨_, by rw [state_eq_ok_iff.2 hx]; rfl⟩
  · exact ⟨_, rfl⟩

/-- **A valid lexicon answers every question.** -/
theorem Valid.answers (h : l.Valid) : l.Answers := by
  have hdag := h.sound.dag_root
  obtain ⟨states, hlisted⟩ := Dump.exists_listed hdag.intact
  have hwalk : ∀ w, ∃ n s, l.arena.walk l.root w = .ok (n, s) := fun w => by
    obtain ⟨n, s, hwalk, -⟩ := exists_walk hdag.intact w
    exact ⟨n, s, hwalk⟩
  constructor
  case contains =>
    intro w
    exact (exists_contains hdag.intact w).imp fun _ => And.left
  case hasPrefix =>
    intro w
    obtain ⟨n, s, hwalk⟩ := hwalk w
    rw [hasPrefix, hwalk]
    split <;> exact ⟨_, rfl⟩
  case longestPrefix =>
    intro w
    obtain ⟨n, s, hwalk⟩ := hwalk w
    exact ⟨n, by rw [longestPrefix, hwalk]; rfl⟩
  case place => exact h.exists_place
  case numbering =>
    obtain ⟨n, hrun, -⟩ := h.numbering_spec
    exact ⟨_, _, hrun⟩
  case rank =>
    intro w
    obtain ⟨n, hrun, -⟩ := h.rank_spec w
    exact ⟨_, _, hrun⟩
  case unrank =>
    intro i
    obtain ⟨n, hrun, -⟩ := h.unrank_spec i
    exact ⟨_, _, hrun⟩
  case words => exact ⟨_, words_eq hdag⟩
  case find => exact fun p => ⟨_, words_find hdag p⟩
  case take =>
    intro p n
    obtain ⟨t, hrun, -⟩ := (Traversal.At.start hdag p).takeFrom [] n
    exact ⟨_, t, hrun⟩
  case hashInput => exact ⟨_, by rw [hashInput, words_eq hdag]; rfl⟩
  case snapshot => exact ⟨_, hlisted.snapshot_eq hdag.intact⟩
  case statistics => exact ⟨_, statistics_eq hlisted⟩

/-! ## Operations -/

/-- The identifiers that a lexicon keeps. -/
inductive Keeps (l : Lexicon σ) : StateId → Prop
  | path {s : StateId} (h : s ∈ l.automaton.pathStates) : Keeps l s
  | registered {p : Fingerprint σ} {s : StateId} (h : l.automaton.register.get? p = some s) :
      Keeps l s
  | target {s t : StateId} {c : σ} (h : l.arena.Edge s c t) : Keeps l t

/-- The slots have run out for a word, or the counts. -/
def RunsOut (l : Lexicon σ) (w : Word σ) (f : Fault) : Prop :=
  f = .arenaFull ∧ slotLimit < l.stateCount + w.length ∨
    f = .countOverflow ∧ l.size + 1 = countLimit

/-- Whatever is done next with a lexicon, all that it relies on is there. -/
structure Safe (l : Lexicon σ) : Prop where
  /-- Every identifier that is kept names a state. -/
  keeps : ∀ s, l.Keeps s → s.slot < l.arena.slotCount ∧ l.arena.isLive s
  /-- Every slot that is to be given to a new state is there and holds none. -/
  free : ∀ s ∈ l.arena.free, s.slot < l.arena.slotCount ∧ l.arena.get? s = none
  /-- A numbering that is remembered has a count for each slot. -/
  counts : ∀ n, l.numbering? = some n → n.counts.size = l.arena.slotCount
  /-- No assertion fails when a word is added, unless there is no slot left. -/
  builder_add : l.lifecycle ≠ .closed → ∀ w,
    (∃ g i ms, l.automaton.add w = .ok (g, i, ms) ∧
        (Builder.ofAutomaton l.automaton).add w = .ok (.ofAutomaton g, i)) ∨
      (Builder.ofAutomaton l.automaton).add w = .error (.fault .arenaFull) ∧
        slotLimit < l.stateCount + w.length
  /-- No assertion fails when the lexicon is closed. -/
  builder_close : l.lifecycle ≠ .closed → ∃ g ms, l.automaton.close = .ok (g, ms) ∧
    (Builder.ofAutomaton l.automaton).close l.root = .ok (.ofAutomaton g)
  add : ∀ w f, (l.add w).result = .error (.fault f) → l.RunsOut w f
  addUnchecked : ∀ w f, (l.addUnchecked w).result = .error (.fault f) → l.RunsOut w f
  close : ∃ l', l.close.result = .ok l'
  clear : ∃ l', l.clear.result = .ok l'
  answers : l.Answers
  /-- Two lexicons can be compared. -/
  compare : ∀ m, Reachable m → (∀ w v, ∃ b, l.samePlace? w m v = .ok b) ∧
    (∃ b, l.sameWords m = .ok b) ∧ ∃ b, l.sameHash m = .ok b
  /-- Any cursor can be advanced, or is refused. -/
  advance : ∀ S rs, Session.Recorded S rs → l ∈ S.lexicons → ∀ k ∈ S.cursors,
    NoFault (k.advance l)
  /-- A dump is written. It stops only where there is no room, or in front of a number of edges that
  cannot be told. -/
  dumpTo : ∀ [SymbolCode σ] (room : Option Nat), ∃ bs stop? l',
    (l.dumpTo room).result = .ok (bs, stop?, l') ∧
      (stop? = some .noRoom → room = some bs.length) ∧
      (stop? = some .tooManyEdges → Dump.range 4 ≤
        {e : StateId × σ × StateId | l.arena.Reaches l.root e.1 ∧ l.arena.Edge e.1 e.2.1 e.2.2}.ncard)
  /-- A dump comes about unless its edges cannot be counted. -/
  dump : ∀ [SymbolCode σ], (∃ bs l', l.dump.result = .ok (bs, l')) ∨
    l.dump.result = .error (.fault .tooManyEdges) ∧ Dump.range 4 ≤
      {e : StateId × σ × StateId | l.arena.Reaches l.root e.1 ∧ l.arena.Edge e.1 e.2.1 e.2.2}.ncard

/-- A kept identifier names a state. -/
theorem Valid.isLive_of_keeps (h : l.Valid) (hs : l.Keeps s) : l.arena.isLive s := by
  cases hs with
  | path hs => exact h.sound.isLive_of_mem_pathStates hs
  | registered hr =>
    obtain ⟨x, hx, -⟩ := h.sound.of_register hr
    exact isLive_of_get? hx
  | target he => exact h.sound.edge_live he

/-- Adding a word faults only where the slots or the counts have run out. -/
theorem Valid.runsOut_of_insert (h : l.Valid) (hl : l.lifecycle ≠ .closed)
    (hr : (l.insert w).result = .error (.fault f)) : l.RunsOut w f := by
  rcases h.insert_error hl hr with ⟨he, -, hlt⟩ | ⟨he, -, -, hsize⟩
  · cases he
    exact .inl ⟨rfl, hlt⟩
  · cases he
    exact .inr ⟨rfl, hsize⟩

/-- Valid lexicons can be compared. -/
theorem Valid.compare (h : l.Valid) (h' : m.Valid) :
    (∀ w v, ∃ b, l.samePlace? w m v = .ok b) ∧ (∃ b, l.sameWords m = .ok b) ∧
      ∃ b, l.sameHash m = .ok b := by
  refine ⟨fun w v => ?_, ⟨_, sameWords_eq h.sound.dag_root h'.sound.dag_root⟩, ?_⟩
  · obtain ⟨p, hp⟩ := h.exists_place w
    obtain ⟨q, hq⟩ := h'.exists_place v
    rw [samePlace?, hp, ok_bind, hq, ok_bind]
    split <;> exact ⟨_, rfl⟩
  · obtain ⟨input, hi⟩ := h.answers.hashInput
    obtain ⟨input', hi'⟩ := h'.answers.hashInput
    exact ⟨_, by rw [sameHash, hi, ok_bind, hi', ok_bind]; rfl⟩

/-- A dump is written as far as there is room and as its edges can be counted. -/
theorem Valid.dumpTo_spec [SymbolCode σ] (h : l.Valid) (room : Option Nat) : ∃ bs stop? l',
    (l.dumpTo room).result = .ok (bs, stop?, l') ∧
      (stop? = some .noRoom → room = some bs.length) ∧
      (stop? = some .tooManyEdges → Dump.range 4 ≤
        {e : StateId × σ × StateId |
          l.arena.Reaches l.root e.1 ∧ l.arena.Edge e.1 e.2.1 e.2.2}.ncard) := by
  obtain ⟨states, n, hlisted, hcontents, -⟩ := h.contents_spec
  refine ⟨_, _, _, dumpTo_of_contents room hcontents, room_eq_of_writeTo, fun hstop => ?_⟩
  rw [← hlisted.length_edgesAmong_eq_ncard]
  exact range_le_of_writeTo hstop

/-- A dump comes about unless its edges cannot be counted. -/
theorem Valid.dump_spec [SymbolCode σ] (h : l.Valid) :
    (∃ bs l', l.dump.result = .ok (bs, l')) ∨
      l.dump.result = .error (.fault .tooManyEdges) ∧ Dump.range 4 ≤
        {e : StateId × σ × StateId |
          l.arena.Reaches l.root e.1 ∧ l.arena.Edge e.1 e.2.1 e.2.2}.ncard := by
  obtain ⟨states, n, hlisted, hcontents, -⟩ := h.contents_spec
  rw [← hlisted.length_edgesAmong_eq_ncard, dump_of_contents hcontents]
  split
  · next hle => exact .inr ⟨rfl, hle⟩
  · exact .inl ⟨_, _, rfl⟩

/-- **No assertion fails and no identifier dangles**, whatever operations have led to a lexicon and
whatever is done with it next; and bytes that are loaded make a lexicon or are refused. -/
theorem Reachable.safe (h : Reachable l) :
    l.Safe ∧
      ∀ [SymbolCode σ] (identity : Nat) (bs : Bytes),
        NoFault (Lexicon.load identity bs : Run σ (Lexicon σ)).result := by
  have hvalid := h.valid
  refine ⟨?_, fun identity bs => Lexicon.load_noFault identity bs⟩
  constructor
  case keeps =>
    intro s hs
    obtain ⟨x, hx⟩ := isLive_iff.1 (hvalid.isLive_of_keeps hs)
    exact ⟨slot_lt_of_get? hx, isLive_of_get? hx⟩
  case free => exact fun s hs => (hvalid.sound.tidy.mem_free_iff s).1 hs
  case counts => exact fun n hn => Numbering.size_of_compute (hvalid.numbering n hn)
  case builder_add => exact fun hl w => Builder.add_spec (hvalid.growing hl) w
  case builder_close => exact fun hl => Builder.close_spec (hvalid.growing hl)
  case add =>
    intro w f hr
    obtain ⟨hl, hr⟩ := insert_of_add_fault hr
    exact hvalid.runsOut_of_insert hl hr
  case addUnchecked =>
    intro w f hr
    obtain ⟨hl, hr⟩ := insert_of_addUnchecked_fault hr
    exact hvalid.runsOut_of_insert hl hr
  case close => exact hvalid.close_spec.imp fun _ => And.left
  case clear => exact l.clear_spec.imp fun _ => And.left
  case answers => exact hvalid.answers
  case compare => exact fun m hm => hvalid.compare hm.valid
  case advance =>
    intro S rs hS hl k hk
    obtain ⟨d, hd⟩ := List.mem_iff_getElem?.1 hl
    obtain ⟨c, hc⟩ := List.mem_iff_getElem?.1 hk
    exact hS.coherent.advance_noFault hc hd
  case dumpTo => exact fun room => hvalid.dumpTo_spec room
  case dump => exact hvalid.dump_spec

/-- A lexicon that has taken a word out of order is safe; closing it merges two of its states. -/
theorem safe_of_out_of_order :
    ∃ l l' : Lexicon UInt8, ((new 0).addUnchecked [3, 2]).result >>=
        (fun r => (r.2.addUnchecked [1, 2]).result) = .ok (true, l) ∧
      l.stateCount = 5 ∧ l.close.result = .ok l' ∧ l'.stateCount = 3 ∧ l.Safe := by
  have hrun : (fun r => (r.1.1, r.1.2.stateCount, r.2.stateCount)) <$>
      (((new 0 : Lexicon UInt8).addUnchecked [3, 2]).result >>= fun r₁ =>
        (r₁.2.addUnchecked [1, 2]).result >>= fun r₂ =>
          (fun l' => (r₂, l')) <$> r₂.2.close.result) = .ok (true, 5, 3) := by cbv
  obtain ⟨⟨⟨b, l⟩, l'⟩, h, he⟩ := map_eq_ok_iff.1 hrun
  obtain ⟨⟨b₁, l₁⟩, h₁, h⟩ := bind_eq_ok_iff.1 h
  obtain ⟨⟨b₂, l₂⟩, h₂, h⟩ := bind_eq_ok_iff.1 h
  obtain ⟨l₃, h₃, h⟩ := map_eq_ok_iff.1 h
  cases h
  obtain ⟨rfl, hcount, hcount'⟩ : b = true ∧ l.stateCount = 5 ∧ l'.stateCount = 3 := by
    simpa using he
  refine ⟨l, l', by rw [h₁]; exact h₂, hcount, h₃, hcount', ?_⟩
  exact (Reachable.safe (.step (.step (.new 0) (.addUnchecked h₁)) (.addUnchecked h₂))).1

end Lexicon

end WordGraph
