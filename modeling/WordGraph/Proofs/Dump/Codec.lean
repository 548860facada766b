import WordGraph.Proofs.Dump.Graph
import WordGraph.Proofs.Run

/-!
# Reading is the inverse of writing

A reader takes a value off the front of some bytes just if the value is one that can be written and
the bytes start with its writing. So contents are read back from their bytes, and bytes that are read
are the bytes of what was read.

* `number_eq_ok_iff`, `readSymbol_eq_ok_iff`, `readNode_eq_ok_iff`, `readEdge_eq_ok_iff`
* `Header.read_eq_ok_iff` — the header
* `Contents.ofBytes_eq_ok_iff` — the whole dump
-/

namespace WordGraph.Dump

variable {σ : Type} [Symbol σ] {α β : Type} {bs rest : Bytes} {n m v : Nat}

/-! ## Readers -/

theorem reader_bind_eq_ok_iff {x : Reader α} {f : α → Reader β} {r : β × Bytes} :
    (x >>= f) bs = .ok r ↔ ∃ a rest, x bs = .ok (a, rest) ∧ f a rest = .ok r := by
  simp only [bind, StateT.bind]
  cases h : x bs with
  | error e => simp [Except.bind]
  | ok p =>
    constructor
    · exact fun h' => ⟨p.1, p.2, rfl, h'⟩
    · rintro ⟨a, rest, hp, h'⟩
      cases hp
      exact h'

theorem reader_pure_eq_ok_iff {a : α} {r : α × Bytes} :
    (pure a : Reader α) bs = .ok r ↔ r = (a, bs) := by
  show Except.ok (a, bs) = _ ↔ _
  rw [Except.ok.injEq, eq_comm]

theorem reader_guard_eq_ok_iff {p : Prop} [Decidable p] {x : Reader β} {e : FormatError}
    {f : α → Reader β} {r : β × Bytes} :
    (if p then x else throw e >>= f) bs = .ok r ↔ p ∧ x bs = .ok r := by
  split
  · next hp => rw [and_iff_right hp]
  · next hp => exact ⟨(nomatch ·), fun h => absurd h.1 hp⟩

theorem reader_liftM_eq_ok_iff {x : Except FormatError α} {r : α × Bytes} :
    (liftM x : Reader α) bs = .ok r ↔ x = .ok r.1 ∧ r.2 = bs := by
  cases x with
  | error e => exact ⟨(nomatch ·), fun h => nomatch h.1⟩
  | ok a =>
    show Except.ok (a, bs) = _ ↔ _
    obtain ⟨b, rest⟩ := r
    simp [eq_comm]

theorem take_eq_ok_iff {taken : Bytes} :
    take n bs = .ok (taken, rest) ↔ taken.length = n ∧ bs = taken ++ rest := by
  constructor
  · intro h
    unfold take at h
    dsimp only at h
    split at h
    · next hlen =>
      cases h
      exact ⟨hlen, (List.take_append_drop n bs).symm⟩
    · cases h
  · rintro ⟨hlen, rfl⟩
    exact take_append hlen rest

/-- A number is what some bytes stand for. -/
theorem number_eq_ok_iff :
    number n bs = .ok (v, rest) ↔ v < range n ∧ bs = encode n v ++ rest := by
  unfold number
  simp only [reader_bind_eq_ok_iff, take_eq_ok_iff, reader_pure_eq_ok_iff, Prod.mk.injEq]
  constructor
  · rintro ⟨taken, rest, ⟨rfl, rfl⟩, rfl, rfl⟩
    exact ⟨decode_lt taken, by rw [encode_decode]⟩
  · rintro ⟨hv, rfl⟩
    exact ⟨encode n v, rest, ⟨length_encode n v, rfl⟩,
      by rw [decode_encode, Nat.mod_eq_of_lt hv], rfl⟩

/-- Values are read one after the other, if each of them is. -/
theorem manyFrom_eq_ok_iff {reader : Reader α} {p : α → Prop} {write : α → Bytes}
    (h : ∀ {bs a rest}, reader bs = .ok (a, rest) ↔ p a ∧ bs = write a ++ rest) {done as : List α} :
    manyFrom reader done n bs = .ok (as, rest) ↔ ∃ new, as = done.reverse ++ new ∧
      new.length = n ∧ (∀ a ∈ new, p a) ∧ bs = new.flatMap write ++ rest := by
  induction n generalizing bs done with
  | zero =>
    rw [manyFrom, reader_pure_eq_ok_iff, Prod.mk.injEq]
    constructor
    · rintro ⟨rfl, rfl⟩
      exact ⟨[], by simp, rfl, by simp, rfl⟩
    · rintro ⟨new, rfl, hlen, -, rfl⟩
      rw [List.length_eq_zero_iff.1 hlen]
      simp
  | succ n ih =>
    simp only [manyFrom, reader_bind_eq_ok_iff, h, ih]
    constructor
    · rintro ⟨a, rest, ⟨ha, rfl⟩, new, rfl, rfl, hnew, rfl⟩
      exact ⟨a :: new, by simp, rfl, List.forall_mem_cons.2 ⟨ha, hnew⟩, by simp⟩
    · rintro ⟨_ | ⟨a, new⟩, rfl, hlen, hnew, rfl⟩
      · cases hlen
      · have hnew := List.forall_mem_cons.1 hnew
        exact ⟨a, _, ⟨hnew.1, by rw [List.flatMap_cons, List.append_assoc]⟩, new, by simp,
          Nat.succ.inj hlen, hnew.2, rfl⟩

theorem many_eq_ok_iff {reader : Reader α} {p : α → Prop} {write : α → Bytes}
    (h : ∀ {bs a rest}, reader bs = .ok (a, rest) ↔ p a ∧ bs = write a ++ rest) {as : List α} :
    many n reader bs = .ok (as, rest) ↔
      as.length = n ∧ (∀ a ∈ as, p a) ∧ bs = as.flatMap write ++ rest := by
  rw [many, manyFrom_eq_ok_iff h]
  simp

/-! ## Symbols, nodes and edges -/

section

variable [SymbolCode σ] {c : σ} {e : Edge σ} {k : Contents σ}

omit [Symbol σ] in
theorem readSymbol_eq_ok_iff : readSymbol bs = .ok (c, rest) ↔ bs = symbolBytes c ++ rest := by
  unfold readSymbol
  simp only [reader_bind_eq_ok_iff, number_eq_ok_iff]
  constructor
  · rintro ⟨code, rest', ⟨-, rfl⟩, h⟩
    cases hd : (SymbolCode.ofCode? code : Option σ) with
    | none =>
      rw [hd] at h
      cases h
    | some d =>
      rw [hd] at h
      cases reader_pure_eq_ok_iff.1 h
      rw [symbolBytes, SymbolCode.ofCode?_eq_some_iff.1 hd]
  · rintro rfl
    refine ⟨SymbolCode.toCode c, rest, ⟨?_, rfl⟩, ?_⟩
    · rw [range_bytes]
      exact SymbolCode.toCode_lt c
    · rw [SymbolCode.ofCode?_toCode]
      rfl

theorem readNode_eq_ok_iff {node : Node} :
    readNode bs = .ok (node, rest) ↔ node.count < range 8 ∧ bs = node.bytes ++ rest := by
  unfold readNode
  simp only [reader_bind_eq_ok_iff, reader_guard_eq_ok_iff, reader_pure_eq_ok_iff, number_eq_ok_iff,
    Prod.mk.injEq]
  constructor
  · rintro ⟨flags, _, ⟨-, rfl⟩, hflags, count, _, ⟨hcount, rfl⟩, rfl, rfl⟩
    refine ⟨hcount, ?_⟩
    have hbit : (decide (flags = 1)).toNat = flags := by
      rcases Nat.le_one_iff_eq_zero_or_eq_one.1 hflags with rfl | rfl <;> rfl
    rw [Node.bytes, List.append_assoc, hbit]
  · rintro ⟨hcount, rfl⟩
    obtain ⟨isFinal, count⟩ := node
    refine ⟨isFinal.toNat, _, ⟨?_, List.append_assoc ..⟩, ?_, count, rest, ⟨hcount, rfl⟩, ?_, rfl⟩
    · cases isFinal <;> decide
    · cases isFinal <;> decide
    · cases isFinal <;> rfl

omit [SymbolCode σ] in
theorem Before.trans {e e' e'' : Edge σ} (h : Before e e') (h' : Before e' e'') : Before e e'' := by
  rcases h with h | ⟨hs, hc⟩ <;> rcases h' with h' | ⟨hs', hc'⟩
  · exact .inl (Nat.lt_trans h h')
  · exact .inl (hs' ▸ h)
  · exact .inl (hs ▸ h')
  · exact .inr ⟨hs.trans hs', Symbol.lt_trans hc hc'⟩

omit [SymbolCode σ] in
theorem checkOrder_eq_ok_iff {previous? : Option (Edge σ)} :
    checkOrder previous? e = .ok () ↔ ∀ p ∈ previous?, Before p e := by
  cases previous? with
  | none => simp [checkOrder]
  | some p =>
    simp only [checkOrder, Option.mem_def, Option.some.injEq, forall_eq', Before]
    split
    · next h =>
      simp only [reduceCtorEq, false_iff, not_or, not_and]
      rcases h with h | ⟨hs, hc⟩
      · exact ⟨by omega, by omega⟩
      · exact ⟨by omega, fun _ => Symbol.not_lt_of_lt hc⟩
    · next h =>
      rw [not_or, not_and] at h
      split
      · next heq =>
        simp only [reduceCtorEq, false_iff, not_or, not_and]
        exact ⟨by omega, fun _ hlt => Symbol.ne_of_lt hlt heq.2.symm⟩
      · next hne =>
        simp only [true_iff]
        rcases Nat.lt_trichotomy p.source e.source with hlt | heq | hgt
        · exact .inl hlt
        · refine .inr ⟨heq, Symbol.lt_of_not_lt_of_ne (h.2 heq.symm) fun hc => ?_⟩
          exact hne ⟨heq.symm, hc.symm⟩
        · exact absurd hgt h.1

/-- The ends of an edge can be written. -/
def Edge.Fits (e : Edge σ) : Prop := e.source < range 4 ∧ e.target < range 4

theorem readEdge_eq_ok_iff {previous? : Option (Edge σ)} :
    readEdge n previous? bs = .ok (e, rest) ↔
      (e.source < n ∧ e.target < n ∧ (∀ p ∈ previous?, Before p e) ∧ e.Fits) ∧
        bs = e.bytes ++ rest := by
  unfold readEdge
  simp only [reader_bind_eq_ok_iff, reader_guard_eq_ok_iff, reader_pure_eq_ok_iff, number_eq_ok_iff,
    reader_liftM_eq_ok_iff, readSymbol_eq_ok_iff, Prod.mk.injEq]
  constructor
  · rintro ⟨s, _, ⟨hs, rfl⟩, c, _, rfl, t, _, ⟨ht, rfl⟩, hsn, htn, _, _, ⟨horder, rfl⟩, rfl, rfl⟩
    exact ⟨⟨hsn, htn, checkOrder_eq_ok_iff.1 horder, hs, ht⟩, by simp [Edge.bytes]⟩
  · rintro ⟨⟨hsn, htn, horder, hs, ht⟩, rfl⟩
    exact ⟨e.source, _, ⟨hs, by rw [Edge.bytes, List.append_assoc, List.append_assoc]⟩, e.symbol, _,
      rfl, e.target, rest, ⟨ht, rfl⟩, hsn, htn, (), rest, ⟨checkOrder_eq_ok_iff.2 horder, rfl⟩, rfl,
      rfl⟩

theorem readEdgesFrom_eq_ok_iff {done es : List (Edge σ)} :
    readEdgesFrom n done m bs = .ok (es, rest) ↔ ∃ new, es = done.reverse ++ new ∧
      new.length = m ∧ Within n new ∧ (∀ e ∈ new, e.Fits) ∧
      (∀ p ∈ done.head?, ∀ e ∈ new, Before p e) ∧ Sorted new ∧
      bs = new.flatMap Edge.bytes ++ rest := by
  induction m generalizing bs done with
  | zero =>
    rw [readEdgesFrom, reader_pure_eq_ok_iff, Prod.mk.injEq]
    constructor
    · rintro ⟨rfl, rfl⟩
      exact ⟨[], by simp, rfl, by simp [Within], by simp, by simp, .nil, rfl⟩
    · rintro ⟨new, rfl, hlen, -, -, -, -, rfl⟩
      rw [List.length_eq_zero_iff.1 hlen]
      simp
  | succ m ih =>
    simp only [readEdgesFrom, reader_bind_eq_ok_iff, readEdge_eq_ok_iff, ih]
    constructor
    · rintro ⟨e, _, ⟨⟨hs, ht, horder, hfits⟩, rfl⟩, new, rfl, rfl, hw, hnew, hbefore, hsorted, rfl⟩
      have hbefore : ∀ e' ∈ new, Before e e' := hbefore e rfl
      refine ⟨e :: new, by simp, rfl, List.forall_mem_cons.2 ⟨⟨hs, ht⟩, hw⟩,
        List.forall_mem_cons.2 ⟨hfits, hnew⟩, fun p hp => ?_,
        List.pairwise_cons.2 ⟨hbefore, hsorted⟩, by simp⟩
      exact List.forall_mem_cons.2 ⟨horder p hp, fun e' he' => (horder p hp).trans (hbefore e' he')⟩
    · rintro ⟨_ | ⟨e, new⟩, rfl, hlen, hw, hnew, hbefore, hsorted, rfl⟩
      · cases hlen
      · obtain ⟨⟨hs, ht⟩, hw⟩ := List.forall_mem_cons.1 hw
        obtain ⟨hfits, hnew⟩ := List.forall_mem_cons.1 hnew
        obtain ⟨hfirst, hsorted⟩ := List.pairwise_cons.1 hsorted
        refine ⟨e, _, ⟨⟨hs, ht, fun p hp => hbefore p hp e (List.mem_cons_self ..), hfits⟩, ?_⟩, new,
          by simp, Nat.succ.inj hlen, hw, hnew, ?_, hsorted, rfl⟩
        · rw [List.flatMap_cons, List.append_assoc]
        · rintro _ ⟨⟩
          exact hfirst

end

/-! ## The header -/

/-- The numbers of a header can be written. -/
structure Header.Fits (h : Header) : Prop where
  words : h.words < range 8
  longest : h.longest < range 4
  nodes : h.nodes < range 4
  edges : h.edges < range 4
  frontier : h.frontier < range 4

theorem Header.read_eq_ok_iff {w : Width} {h : Header} :
    Header.read w bs = .ok (h, rest) ↔ h.Fits ∧ bs = h.bytes w ++ rest := by
  unfold Header.read
  simp only [reader_bind_eq_ok_iff, reader_guard_eq_ok_iff, take_eq_ok_iff, number_eq_ok_iff]
  constructor
  · rintro ⟨_, _, ⟨-, rfl⟩, rfl, _, _, ⟨-, rfl⟩, rfl, _, _, ⟨-, rfl⟩, rfl, code, _, ⟨-, rfl⟩, hr⟩
    cases hlife : lifecycleOfCode? code with
    | none =>
      rw [hlife] at hr
      cases hr
    | some life =>
      rw [hlife] at hr
      simp only [reader_bind_eq_ok_iff, reader_guard_eq_ok_iff, number_eq_ok_iff,
        reader_pure_eq_ok_iff, Prod.mk.injEq] at hr
      obtain ⟨_, _, ⟨-, rfl⟩, rfl, words, _, ⟨hw, rfl⟩, longest, _, ⟨hl, rfl⟩, nodes, _, ⟨hn, rfl⟩,
        edges, _, ⟨he, rfl⟩, frontier, _, ⟨hf, rfl⟩, rfl, rfl⟩ := hr
      refine ⟨⟨hw, hl, hn, he, hf⟩, ?_⟩
      rw [lifecycleOfCode?_eq_some_iff.1 hlife]
      simp [bytes, front]
  · rintro ⟨hfits, rfl⟩
    have hwidth : w.bytes < range 1 := by cases w <;> decide
    have hlife : lifecycleCode h.lifecycle < range 1 := by cases h.lifecycle <;> decide
    simp only [bytes, front, List.append_assoc]
    refine ⟨magic, _, ⟨rfl, rfl⟩, rfl, version, _,
      ⟨by decide, rfl⟩, rfl, w.bytes, _, ⟨hwidth, rfl⟩, rfl, _, _, ⟨hlife, rfl⟩, ?_⟩
    rw [lifecycleOfCode?_eq_some_iff.2 rfl]
    simp only [reader_bind_eq_ok_iff, reader_guard_eq_ok_iff, number_eq_ok_iff,
      reader_pure_eq_ok_iff, Prod.mk.injEq]
    exact ⟨0, _, ⟨by decide, rfl⟩, rfl, h.words, _, ⟨hfits.words, rfl⟩, h.longest, _,
      ⟨hfits.longest, rfl⟩, h.nodes, _, ⟨hfits.nodes, rfl⟩, h.edges, _, ⟨hfits.edges, rfl⟩,
      h.frontier, rest, ⟨hfits.frontier, rfl⟩, rfl, rfl⟩

/-! ## The whole dump -/

theorem length_flatMap_of_const {write : α → Bytes} (h : ∀ a, (write a).length = n) (as : List α) :
    (as.flatMap write).length = as.length * n := by
  induction as with
  | nil => simp
  | cons a as ih => rw [List.flatMap_cons, List.length_append, h, ih, List.length_cons, Nat.add_one_mul,
      Nat.add_comm]

section

variable [SymbolCode σ] {k : Contents σ}

omit [Symbol σ] in
@[simp] theorem length_symbolBytes (c : σ) :
    (symbolBytes c).length = (SymbolCode.width σ).bytes :=
  length_encode ..

omit [Symbol σ] [SymbolCode σ] in
@[simp] theorem Node.length_bytes (node : Node) : node.bytes.length = nodeLength := by
  simp [bytes, nodeLength]

omit [Symbol σ] in
@[simp] theorem Edge.length_bytes (e : Edge σ) :
    e.bytes.length = 8 + (SymbolCode.width σ).bytes := by
  simp [bytes]
  omega

omit [Symbol σ] in
/-- The bytes of contents are as many as their header tells. -/
theorem Contents.length_bytes (k : Contents σ) :
    k.bytes.length = k.header.dumpLength (SymbolCode.width σ) := by
  rw [bytes, List.length_append, List.length_append, List.length_append, Header.length_bytes,
    length_flatMap_of_const length_symbolBytes, length_flatMap_of_const Node.length_bytes,
    length_flatMap_of_const Edge.length_bytes]
  rfl

/-- Contents that can be written and read back. -/
structure Contents.WellFormed (k : Contents σ) : Prop where
  within : Within k.nodes.length k.edges
  sorted : Sorted k.edges
  nodes_ne : k.nodes ≠ []
  frontier_eq : k.lifecycle ≠ .active → k.frontier = []
  counts : ∀ node ∈ k.nodes, node.count < range 8
  header : k.header.Fits

theorem Contents.readBody_eq_ok_iff {h : Header} :
    Contents.readBody h bs = .ok (k, rest) ↔
      (k.lifecycle = h.lifecycle ∧ k.words = h.words ∧ k.longest = h.longest ∧
        k.frontier.length = h.frontier ∧ k.nodes.length = h.nodes ∧ k.edges.length = h.edges) ∧
      (∀ node ∈ k.nodes, node.count < range 8) ∧ Within h.nodes k.edges ∧
      (∀ e ∈ k.edges, e.Fits) ∧ Sorted k.edges ∧
      bs = k.frontier.flatMap symbolBytes ++
        (k.nodes.flatMap Node.bytes ++ (k.edges.flatMap Edge.bytes ++ rest)) := by
  have hsymbol : ∀ {bs : Bytes} {c : σ} {rest}, readSymbol bs = .ok (c, rest) ↔
      True ∧ bs = symbolBytes c ++ rest := by
    intro bs c rest
    rw [readSymbol_eq_ok_iff, true_and]
  unfold Contents.readBody
  simp only [reader_bind_eq_ok_iff, many_eq_ok_iff hsymbol, many_eq_ok_iff readNode_eq_ok_iff,
    readEdgesFrom_eq_ok_iff, reader_pure_eq_ok_iff, Prod.mk.injEq]
  constructor
  · rintro ⟨frontier, _, ⟨hf, -, rfl⟩, nodes, _, ⟨hn, hcounts, rfl⟩, _, _, ⟨edges, rfl, he, hw, hfits,
      -, hsorted, rfl⟩, rfl, rfl⟩
    exact ⟨⟨rfl, rfl, rfl, hf, hn, he⟩, hcounts, hw, hfits, hsorted, rfl⟩
  · rintro ⟨⟨hlife, hwords, hlong, hf, hn, he⟩, hcounts, hw, hfits, hsorted, rfl⟩
    obtain ⟨lifecycle, words, longest, frontier, nodes, edges⟩ := k
    obtain rfl : lifecycle = h.lifecycle := hlife
    obtain rfl : words = h.words := hwords
    obtain rfl : longest = h.longest := hlong
    exact ⟨frontier, _, ⟨hf, fun _ _ => trivial, rfl⟩, nodes, _, ⟨hn, hcounts, rfl⟩, edges, rest,
      ⟨edges, rfl, he, hw, hfits, by simp, hsorted, rfl⟩, rfl, rfl⟩

/-- **Bytes are read just if they are those of contents that can be written.** -/
theorem Contents.ofBytes_eq_ok_iff :
    Contents.ofBytes bs = .ok k ↔ k.WellFormed ∧ bs = k.bytes := by
  unfold Contents.ofBytes
  simp only [bind_eq_ok_iff, refuse_eq_ok_iff]
  constructor
  · rintro ⟨⟨h, rest⟩, hread, hle, hge, hnodes, hfrontier, ⟨k', rest'⟩, hbody, hk⟩
    obtain rfl : k = k' := (Except.ok.inj hk).symm
    obtain ⟨hfits, rfl⟩ := Header.read_eq_ok_iff.1 hread
    obtain ⟨⟨hlife, hwords, hlong, hf, hn, he⟩, hcounts, hw, hefits, hsorted, rfl⟩ :=
      readBody_eq_ok_iff.1 hbody
    have hheader : k.header = h := by
      obtain ⟨lifecycle, words, longest, nodes, edges, frontier⟩ := h
      simp only at hlife hwords hlong hf hn he
      simp [header, hlife, hwords, hlong, hf, hn, he]
    have hbytes : h.bytes (SymbolCode.width σ) ++ (k.frontier.flatMap symbolBytes ++
        (k.nodes.flatMap Node.bytes ++ (k.edges.flatMap Edge.bytes ++ rest'))) =
          k.bytes ++ rest' := by
      simp only [bytes, hheader, List.append_assoc]
    -- nothing is left over, as the length is exact
    have hrest : rest' = [] := by
      have hlen := k.length_bytes
      rw [hheader] at hlen
      rw [hbytes, List.length_append] at hge
      dsimp only at hge
      exact List.length_eq_zero_iff.1 (by omega)
    refine ⟨⟨hn ▸ hw, hsorted, fun hnil => hnodes ?_, fun hne => ?_, hcounts, hheader ▸ hfits⟩, ?_⟩
    · rw [← hn, hnil]
      rfl
    · by_contra hf'
      refine hfrontier ⟨hlife ▸ hne, fun hz => hf' (List.length_eq_zero_iff.1 (hf.trans hz))⟩
    · rw [hbytes, hrest, List.append_nil]
  · rintro ⟨hwf, rfl⟩
    have hlen := k.length_bytes
    have hread : Header.read (SymbolCode.width σ) k.bytes = .ok (k.header,
        k.frontier.flatMap symbolBytes ++ (k.nodes.flatMap Node.bytes ++
          (k.edges.flatMap Edge.bytes ++ []))) :=
      Header.read_eq_ok_iff.2 ⟨hwf.header, by simp only [bytes, List.append_assoc, List.append_nil]⟩
    have hn : k.nodes.length < range 4 := hwf.header.nodes
    refine ⟨_, hread, ?_, ?_, ?_, ?_, (k, []), ?_, rfl⟩
    · dsimp only
      omega
    · dsimp only
      omega
    · exact fun h => hwf.nodes_ne (List.length_eq_zero_iff.1 h)
    · rintro ⟨hlife, hf⟩
      exact hf (congrArg List.length (hwf.frontier_eq hlife))
    · refine readBody_eq_ok_iff.2 ⟨⟨rfl, rfl, rfl, rfl, rfl, rfl⟩, hwf.counts, hwf.within,
        fun e he => ?_, hwf.sorted, rfl⟩
      obtain ⟨hs, ht⟩ := hwf.within e he
      exact ⟨Nat.lt_trans hs hn, Nat.lt_trans ht hn⟩

end

end WordGraph.Dump
