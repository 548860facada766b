import Mathlib
import WordGraph.Proofs.Dump.Canonical
import WordGraph.Proofs.Lexicon.Slots

/-!
# What the header of a dump tells

The header of a dump has eight bytes for the number of words, and four each for the length of the
longest word and for the numbers of nodes, of edges and of symbols of the last word. A lexicon has at
most as many states as there are identifiers, which is 2^32, and that is one more than four bytes can
tell. With so many states, and no fewer, the header says that there is no node at all. The longest
word and the last one are shorter than there are states, so their lengths are right even then. The
number of edges has no such bound, and where four bytes cannot tell it, there is no dump.

* `Tells`, `Accurate` — a header, and a dump with a header, that tell the truth
* `Reachable.headed` — what the header of a dump tells
* `Headed.accurate_iff` — it tells the truth just if there are fewer than 2^32 states and edges
* `exists_dump_of_length` — a word of 2^32 - 1 symbols makes it tell that there are no nodes
* `exists_tooManyEdges` — the words of one symbol can be too many edges for a dump
-/

namespace WordGraph

open Arena Automaton Dump

variable {σ : Type} [Symbol σ]

namespace Dump

/-- Numbers that are the same modulo the range of a width are written in the same way. -/
theorem encode_mod (n v : Nat) : encode n (v % range n) = encode n v := by
  have h := encode_decode (encode n v)
  rwa [length_encode, decode_encode] at h

namespace Header

/-- What is left of a header in its bytes: each number modulo the range of its width. -/
def wrapped (k : Header) : Header where
  lifecycle := k.lifecycle
  words := k.words % range 8
  longest := k.longest % range 4
  nodes := k.nodes % range 4
  edges := k.edges % range 4
  frontier := k.frontier % range 4

theorem fits_wrapped (k : Header) : k.wrapped.Fits where
  words := Nat.mod_lt _ (by decide)
  longest := Nat.mod_lt _ (by decide)
  nodes := Nat.mod_lt _ (by decide)
  edges := Nat.mod_lt _ (by decide)
  frontier := Nat.mod_lt _ (by decide)

theorem bytes_wrapped (w : Width) (k : Header) : k.wrapped.bytes w = k.bytes w := by
  simp only [bytes, front, wrapped, encode_mod]

/-- **Any header can be read**, but its numbers may have started over. -/
theorem read_bytes_append (w : Width) (k : Header) (rest : Bytes) :
    Header.read w (k.bytes w ++ rest) = .ok (k.wrapped, rest) :=
  read_eq_ok_iff.2 ⟨k.fits_wrapped, by rw [bytes_wrapped]⟩

end Header

omit [Symbol σ] in
/-- A dump starts with its header. -/
theorem Contents.exists_read_header [SymbolCode σ] (k : Contents σ) :
    ∃ rest, Header.read (SymbolCode.width σ) k.bytes = .ok (k.header.wrapped, rest) :=
  ⟨k.frontier.flatMap symbolBytes ++ (k.nodes.flatMap Node.bytes ++ k.edges.flatMap Edge.bytes),
    by rw [bytes, List.append_assoc, List.append_assoc, Header.read_bytes_append]⟩

end Dump

namespace Lexicon

variable {l m : Lexicon σ} {k : Header} {states : List (StateId × State σ)} {w : Word σ}

/-! ## The numbers of a lexicon -/

/-- A header tells the truth about a lexicon. -/
structure Tells (k : Header) (l : Lexicon σ) : Prop where
  lifecycle_eq : k.lifecycle = l.lifecycle
  words : {w | l.Holds w}.encard = k.words
  length_le : ∀ w, l.Holds w → w.length ≤ k.longest
  /-- The length of the longest word is 0 if there is no word. -/
  longest_eq : (∃ w, l.Holds w ∧ w.length = k.longest) ∨ (∀ w, ¬l.Holds w) ∧ k.longest = 0
  nodes : {s | l.arena.Reaches l.root s}.encard = k.nodes
  edges : {e : StateId × σ × StateId |
    l.arena.Reaches l.root e.1 ∧ l.arena.Edge e.1 e.2.1 e.2.2}.encard = k.edges
  /-- Only as long as words can be added, the last word is told. -/
  frontier : k.frontier = if l.lifecycle = .active then l.automaton.lastWord.length else 0

/-- The header of what a dump says tells the truth. -/
theorem Valid.tells (h : l.Valid) (hs : Listed l.arena l.root states) :
    Tells (l.contentsOf states).header l where
  lifecycle_eq := rfl
  words := h.encard_holds
  length_le _ hw := h.length_le hw
  longest_eq := h.exists_length_eq
  nodes := by
    rw [hs.encard_states, Contents.header, length_nodes, List.length_map]
  edges := hs.encard_edges
  frontier := by
    show l.automaton.lastWord.length = _
    split
    · rfl
    · next hl => rw [h.lastWord_eq_nil hl, List.length_nil]

/-- As many states are listed as there are identifiers at most. -/
theorem Reachable.length_le (h : Reachable l) (hs : Listed l.arena l.root states) :
    states.length ≤ slotLimit := by
  rw [← List.length_map (f := Prod.fst)]
  refine length_le_of_nodup hs.nodup fun s hmem => ?_
  obtain ⟨p, hp, rfl⟩ := List.mem_map.1 hmem
  exact Nat.lt_of_lt_of_le (slot_lt_of_get? (hs.get? p hp)) h.slotCount_le

/-- In the header of what a dump says, only the number of nodes may start over. -/
theorem Valid.wrapped_header (h : l.Valid) (hs : Listed l.arena l.root states)
    (hstates : states.length ≤ range 4) (hedges : (edgesAmong states).length < range 4) :
    (l.contentsOf states).header.wrapped = { (l.contentsOf states).header with
      nodes := (l.contentsOf states).header.nodes % range 4 } := by
  have hfits := h.header_fits hs hstates hedges (n := 0) (by decide)
  rw [Header.wrapped, Nat.mod_eq_of_lt hfits.words, Nat.mod_eq_of_lt hfits.longest,
    Nat.mod_eq_of_lt hfits.edges, Nat.mod_eq_of_lt hfits.frontier]

/-! ## The header -/

variable [SymbolCode σ]

/-- A dump comes about, and its header tells the truth. -/
def Accurate (l : Lexicon σ) : Prop :=
  ∃ bs m k rest, l.dump.result = .ok (bs, m) ∧
    Header.read (SymbolCode.width σ) bs = .ok (k, rest) ∧ Tells k l

/-- How a lexicon is dumped if the header `k` tells the truth about it. -/
structure Headed (l : Lexicon σ) (k : Header) : Prop where
  tells : Tells k l
  longest_lt : k.longest < k.nodes
  nodes_le : k.nodes ≤ 2 ^ 32
  /-- There is no dump of more edges than its header can tell. -/
  tooManyEdges : 2 ^ 32 ≤ k.edges → l.dump.result = .error (.fault .tooManyEdges)
  /-- The header of a dump tells the truth, but for the number of nodes if that is 2^32. -/
  dump : k.edges < 2 ^ 32 → ∃ bs m rest, l.dump.result = .ok (bs, m) ∧
    Header.read (SymbolCode.width σ) bs = .ok ({ k with nodes := k.nodes % 2 ^ 32 }, rest)

/-- There is a header that tells the truth about a lexicon, and the dump goes by it. -/
theorem Reachable.exists_headed (h : Reachable l) : ∃ k, Headed l k := by
  have hvalid := h.valid
  obtain ⟨states, n, hs, hcontents, -⟩ := hvalid.contents_spec
  have hrange : range 4 = 2 ^ 32 := by decide
  have hstates : states.length ≤ range 4 := h.length_le hs
  have hnodes : (l.contentsOf states).header.nodes = states.length := List.length_map _
  have hdump := dump_of_contents hcontents
  refine ⟨(l.contentsOf states).header, hvalid.tells hs, hnodes ▸ hvalid.longest_lt hs,
    hnodes ▸ hrange ▸ hstates, fun hle => ?_, fun hlt => ?_⟩
  · exact hdump.trans (if_pos (hrange ▸ hle))
  · rw [← hrange] at hlt ⊢
    obtain ⟨rest, hread⟩ := (l.contentsOf states).exists_read_header
    rw [hvalid.wrapped_header hs hstates hlt] at hread
    exact ⟨_, _, rest, hdump.trans (if_neg (Nat.not_le_of_lt hlt)), hread⟩

/-- The header of a dump tells the truth just if there are fewer than 2^32 nodes and edges. -/
theorem Headed.accurate_iff (h : Headed l k) :
    l.Accurate ↔ k.nodes < 2 ^ 32 ∧ k.edges < 2 ^ 32 := by
  constructor
  · rintro ⟨bs, m, k', rest, hrun, hread, hk'⟩
    have hlt : k.edges < 2 ^ 32 := by
      by_contra hle
      rw [h.tooManyEdges (Nat.le_of_not_lt hle)] at hrun
      cases hrun
    obtain ⟨bs', m', rest', hrun', hread'⟩ := h.dump hlt
    rw [hrun] at hrun'
    cases hrun'
    rw [hread] at hread'
    cases hread'
    -- the number that was read is the number of nodes, and it is less than 2^32
    have hsame : k.nodes = k.nodes % 2 ^ 32 :=
      ENat.natCast_inj.1 (h.tells.nodes.symm.trans hk'.nodes)
    exact ⟨hsame ▸ Nat.mod_lt _ (by decide), hlt⟩
  · rintro ⟨hnodes, hedges⟩
    obtain ⟨bs, m, rest, hrun, hread⟩ := h.dump hedges
    rw [Nat.mod_eq_of_lt hnodes] at hread
    exact ⟨bs, m, k, rest, hrun, hread, h.tells⟩

/-- **What the header of a dump tells**: the truth, but for the number of nodes if there are 2^32. A
dump comes about just if there are fewer edges than that. -/
theorem Reachable.headed (h : Reachable l) :
    ∃ k, Headed l k ∧ (l.Accurate ↔ k.nodes < 2 ^ 32 ∧ k.edges < 2 ^ 32) := by
  obtain ⟨k, hk⟩ := h.exists_headed
  exact ⟨k, hk, hk.accurate_iff⟩

/-- The words 12 and 22 share all states but the start, so four nodes and four edges are told of three
words, and truly. -/
theorem headed_of_three_words :
    ∃ (l : Lexicon UInt8) (k : Header), l = (new 0).after [.add [1, 2], .add [2, 2], .add [3]] ∧
      Headed l k ∧ (k.nodes, k.edges, k.frontier) = (4, 4, 1) ∧ l.Accurate := by
  obtain ⟨l, hl⟩ : ∃ l : Lexicon UInt8, l = (new 0).after [.add [1, 2], .add [2, 2], .add [3]] :=
    ⟨_, rfl⟩
  have hrun : ((fun r => (r.1.nodes.length, r.1.edges.length)) <$> l.contents.result,
      l.lifecycle, l.automaton.lastWord) = (.ok (4, 4), .active, [3]) := by
    subst hl
    cbv
  simp only [Prod.mk.injEq] at hrun
  obtain ⟨hlengths, hlife, hlast⟩ := hrun
  have hreach : l.Reachable := hl ▸ .after (.new 0) _
  obtain ⟨hstates, hedges⟩ := hreach.valid.ncard_of_lengths hlengths
  obtain ⟨k, hk, haccurate⟩ := Reachable.headed hreach
  have hnodes : k.nodes = 4 := by
    rw [← hstates, Set.ncard, hk.tells.nodes, ENat.toNat_natCast]
  have hedges : k.edges = 4 := by
    rw [← hedges, Set.ncard, hk.tells.edges, ENat.toNat_natCast]
  have hfrontier : k.frontier = 1 := by
    rw [hk.tells.frontier, if_pos hlife, hlast]
    rfl
  refine ⟨l, k, hl, hk, by rw [hnodes, hedges, hfrontier], haccurate.2 ?_⟩
  rw [hnodes, hedges]
  decide

/-! ## Too many states -/

omit [SymbolCode σ] in
/-- In the lexicon of one word, no state has more than one edge that leads to it, and the start state
has none. -/
theorem Valid.encard_edges_lt (h : l.Valid) (hone : ∀ v, l.Holds v → v = w)
    (hfinite : {s | l.arena.Reaches l.root s}.Finite) :
    {e : StateId × σ × StateId | l.arena.Reaches l.root e.1 ∧ l.arena.Edge e.1 e.2.1 e.2.2}.encard <
      {s | l.arena.Reaches l.root s}.encard := by
  have hmaps : Set.MapsTo (fun e : StateId × σ × StateId => e.2.2)
      {e | l.arena.Reaches l.root e.1 ∧ l.arena.Edge e.1 e.2.1 e.2.2}
      ({s | l.arena.Reaches l.root s} \ {l.root}) := by
    rintro ⟨s, c, t⟩ ⟨hs, he⟩
    refine ⟨Reaches.trans hs he.reaches, ?_⟩
    rintro rfl
    exact h.sound.not_edge_root he
  have hinj : Set.InjOn (fun e : StateId × σ × StateId => e.2.2)
      {e | l.arena.Reaches l.root e.1 ∧ l.arena.Edge e.1 e.2.1 e.2.2} := by
    rintro ⟨s, c, t⟩ ⟨⟨u, hu⟩, he⟩ ⟨s', c', t'⟩ ⟨⟨u', hu'⟩, he'⟩ heq
    obtain rfl : t = t' := heq
    obtain ⟨v, hv⟩ := h.exists_accepts_of_edge he
    -- both edges are on the way to the one word, with the same rest behind them
    have hword := hone (u ++ c :: v) ((accepts_append_iff hu).2 (he.accepts_cons_iff.2 hv))
    have hword' := hone (u' ++ c' :: v) ((accepts_append_iff hu').2 (he'.accepts_cons_iff.2 hv))
    obtain ⟨rfl, hcons⟩ := List.append_inj' (hword.trans hword'.symm) rfl
    obtain ⟨rfl, -⟩ := List.cons.inj hcons
    obtain rfl : s = s' := hu.unique hu'
    rfl
  refine (Set.encard_le_encard_of_injOn hmaps hinj).trans_lt ?_
  refine (hfinite.subset Set.sdiff_subset).encard_lt_encard ?_
  exact Set.sdiff_singleton_ssubset.2 (Reaches.refl l.root)

/-- **The dump of a word of 2^32 - 1 symbols says that there are no nodes.** -/
theorem exists_dump_of_length (identity : Nat) (hw : w.length + 1 = 2 ^ 32) :
    ∃ l bs m k rest, ((new identity).add w).result = .ok (true, l) ∧
      {s | l.arena.Reaches l.root s}.encard = 2 ^ 32 ∧ l.dump.result = .ok (bs, m) ∧
      Header.read (SymbolCode.width σ) bs = .ok (k, rest) ∧ k.nodes = 0 ∧ ¬l.Accurate := by
  have hlimit : slotLimit = 2 ^ 32 := by decide
  have hroom : (new identity : Lexicon σ).stateCount + w.length ≤ slotLimit := by
    have hone : (new identity : Lexicon σ).stateCount = 1 := rfl
    omega
  obtain ⟨isNew, l, hadd, hnew, hord, -⟩ := (Ordered.new identity).exists_add nofun
    (List.not_lt_nil w) hroom (by rw [Set.ncard_empty]; decide)
  obtain rfl : isNew = true := hnew.2 (Set.notMem_empty w)
  have hholds : ∀ v, l.Holds v ↔ v = w := fun v => by
    rw [hord.holds_iff, Set.empty_union, Set.mem_singleton_iff]
  obtain ⟨k, hk⟩ := Reachable.exists_headed (.step (.new identity) (.add hadd))
  -- the word is the longest one, so there are as many nodes as there can be
  have hlong := hk.tells.length_le w ((hholds w).2 rfl)
  have hlt := hk.longest_lt
  have hle := hk.nodes_le
  have hnodes : k.nodes = 2 ^ 32 := by omega
  have hstates := hk.tells.nodes
  have hedges : k.edges < 2 ^ 32 := by
    have hfewer := hord.valid.encard_edges_lt (fun v => (hholds v).1)
      (Set.encard_ne_top_iff.1 (hstates ▸ ENat.natCast_ne_top _))
    rw [hstates, hk.tells.edges, hnodes] at hfewer
    exact_mod_cast hfewer
  obtain ⟨bs, m, rest, hdump, hread⟩ := hk.dump hedges
  refine ⟨l, bs, m, _, rest, hadd, ?_, hdump, hread, ?_, fun hacc => ?_⟩
  · rw [hstates, hnodes]
    norm_cast
  · show k.nodes % 2 ^ 32 = 0
    rw [hnodes, Nat.mod_self]
  · have hless := (hk.accurate_iff.1 hacc).1
    omega

/-- The dump of 2^32 - 1 zeros comes about, but its header does not tell the truth. -/
theorem not_accurate_of_zeros :
    ∃ (l : Lexicon UInt8) (bs : Bytes) (m : Lexicon UInt8) (k : Header) (rest : Bytes),
      ((new 0).add (List.replicate (2 ^ 32 - 1) 0)).result = .ok (true, l) ∧
      {s | l.arena.Reaches l.root s}.encard = 2 ^ 32 ∧ l.dump.result = .ok (bs, m) ∧
      Header.read (SymbolCode.width UInt8) bs = .ok (k, rest) ∧ k.nodes = 0 ∧ ¬l.Accurate := by
  refine exists_dump_of_length 0 ?_
  rw [List.length_replicate]
  omega

/-! ## Too many edges -/

/-- The first so many words of one symbol. -/
def letters (n : Nat) : Set (Word UInt32) := (fun i => [UInt32.ofNat i]) '' (Finset.range n)

theorem letters_succ (n : Nat) : letters (n + 1) = letters n ∪ {[UInt32.ofNat n]} := by
  rw [letters, Finset.range_add_one, Finset.coe_insert, Set.image_insert_eq, Set.insert_eq,
    Set.union_comm]
  rfl

theorem letters_all : letters (2 ^ 32) = {w | w.length = 1} := by
  ext w
  simp only [letters, Set.mem_image, Finset.mem_coe, Finset.mem_range]
  constructor
  · rintro ⟨i, -, rfl⟩
    rfl
  · intro hw
    obtain ⟨c, rfl⟩ := List.length_eq_one_iff.1 hw
    exact ⟨c.toNat, c.toNat_lt, by rw [UInt32.ofNat_toNat]⟩

theorem encard_letters {n : Nat} (hn : n ≤ 2 ^ 32) : (letters n).encard = n := by
  have hinj : Set.InjOn (fun i => [UInt32.ofNat i]) (Finset.range n : Set Nat) := by
    intro i hi j hj h
    have hi : i < 2 ^ 32 := (Finset.mem_range.1 hi).trans_le hn
    have hj : j < 2 ^ 32 := (Finset.mem_range.1 hj).trans_le hn
    have heq := congrArg UInt32.toNat (List.head_eq_of_cons_eq h)
    rwa [UInt32.toNat_ofNat_of_lt' hi, UInt32.toNat_ofNat_of_lt' hj] at heq
  rw [letters, hinj.encard_image, Set.encard_coe_eq_coe_finsetCard, Finset.card_range]

/-- A letter does not come before the one before it. -/
theorem not_letter_lt {n : Nat} (hn : n + 1 < 2 ^ 32) :
    ¬[UInt32.ofNat (n + 1)] < [UInt32.ofNat n] := by
  rw [List.cons_lt_cons_iff]
  rintro (hlt | ⟨-, hlt⟩)
  · have hlt : (UInt32.ofNat (n + 1)).toNat < (UInt32.ofNat n).toNat := UInt32.lt_iff_toNat_lt.1 hlt
    rw [UInt32.toNat_ofNat_of_lt' hn, UInt32.toNat_ofNat_of_lt' (Nat.lt_of_succ_lt hn)] at hlt
    omega
  · exact List.not_lt_nil _ hlt

/-- The words of one symbol can be added in order one after the other. From the third on, there is a
state for them to share, so there are never more states than words. -/
theorem exists_letters (n : Nat) (hn : n + 3 ≤ 2 ^ 32) : ∃ l, Reachable l ∧
    Ordered l (letters (n + 3)) [UInt32.ofNat (n + 2)] .active ∧ l.stateCount ≤ n + 3 := by
  induction n with
  | zero =>
    have hrun : (fun r => r.2.stateCount) <$> (((new 0 : Lexicon UInt32).add [0]).result >>= fun r =>
        (r.2.add [1]).result >>= fun r => (r.2.add [2]).result) = .ok 3 := by cbv
    obtain ⟨⟨b₂, l⟩, h, hcount⟩ := map_eq_ok_iff.1 hrun
    obtain ⟨⟨b, l₀⟩, h₀, h⟩ := bind_eq_ok_iff.1 h
    obtain ⟨⟨b₁, l₁⟩, h₁, h₂⟩ := bind_eq_ok_iff.1 h
    have hletters : letters 3 = ∅ ∪ {[0]} ∪ {[1]} ∪ {[2]} := by
      rw [letters_succ, letters_succ, letters_succ]
      simp [letters]
    refine ⟨l, .step (.step (.step (.new 0) (.add h₀)) (.add h₁)) (.add h₂), ?_, Nat.le_of_eq hcount⟩
    rw [hletters]
    exact ((((Built.new 0).add h₀).add h₁).add h₂).ordered
  | succ n ih =>
    obtain ⟨l, hreach, hord, hcount⟩ := ih (by omega)
    have hroom : l.stateCount + 1 ≤ slotLimit := by
      have hlimit : slotLimit = 2 ^ 32 := by decide
      omega
    have hfew : (letters (n + 3)).ncard + 1 < countLimit := by
      have hlimit : countLimit = 2 ^ 64 := by decide
      rw [Set.ncard, encard_letters (by omega), ENat.toNat_natCast]
      omega
    obtain ⟨isNew, l', hadd, -, hord', hcount'⟩ := hord.exists_add (by decide)
      (not_letter_lt (n := n + 2) (by omega)) hroom hfew
    refine ⟨l', hreach.step (.add hadd), ?_, hcount'.trans (Nat.succ_le_succ hcount)⟩
    rw [letters_succ]
    exact hord'

/-- **The words of one symbol of 32 bits are too many edges for a dump**, one for each. -/
theorem exists_tooManyEdges : ∃ l : Lexicon UInt32, Reachable l ∧
    (∀ w, l.Holds w ↔ w.length = 1) ∧ l.dump.result = .error (.fault .tooManyEdges) := by
  obtain ⟨l, hreach, hord, -⟩ := exists_letters (2 ^ 32 - 3) (by omega)
  have hholds : ∀ w, l.Holds w ↔ w ∈ letters (2 ^ 32) := hord.holds_iff
  obtain ⟨k, hk⟩ := hreach.exists_headed
  have hsub : letters (2 ^ 32) ⊆ (fun e : StateId × UInt32 × StateId => [e.2.1]) ''
      {e | l.arena.Reaches l.root e.1 ∧ l.arena.Edge e.1 e.2.1 e.2.2} := by
    rintro _ ⟨i, hi, rfl⟩
    obtain ⟨t, he, -⟩ := accepts_cons_iff.1 ((hholds _).2 ⟨i, hi, rfl⟩)
    exact ⟨(l.root, _, t), ⟨.refl l.root, he⟩, rfl⟩
  have hle := (Set.encard_le_encard hsub).trans (Set.encard_image_le _ _)
  rw [encard_letters (Nat.le_refl _), hk.tells.edges] at hle
  refine ⟨l, hreach, fun w => ?_, hk.tooManyEdges (by exact_mod_cast hle)⟩
  rw [hholds, letters_all]
  rfl

end Lexicon

end WordGraph
