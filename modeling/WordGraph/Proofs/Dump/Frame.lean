import WordGraph.Proofs.Dump.Codec

/-!
# Bytes that are missing or left over

A dump tells its own length in its header. So bytes that are read are read neither if some are missing
at the end nor if some are added, and the reason is just that.

A reader that is given less bytes reads the same or finds them truncated: it looks at no byte behind
those that it takes. The reasons for which bytes are not read say nothing of the graph that they
describe, which is not looked at before all of them are read.

* `Framed` — a reader looks at the bytes that it takes, and no others
* `Contents.ofBytes_of_isPrefix`, `Contents.ofBytes_append` — bytes that are missing or left over
* `Raises`, `Contents.raises_ofBytes` — the reasons for which bytes are not read
-/

namespace WordGraph

/-- Whether a reason tells something of a graph: that it has a cycle, or something of its nodes, of
their order or of the words that they accept. -/
def FormatError.isAboutGraph : FormatError → Bool
  | .cycle | .unreachable _ | .nodeOrder | .countMismatch _ | .countOverflow | .notMinimal _ => true
  | _ => false

namespace Dump

variable {σ : Type} [Symbol σ] {α β : Type} {bs bs' : Bytes}

/-! ## Readers that look at what they take -/

/-- Where less bytes are left, a reader reads the same or finds them truncated. -/
def Framed (x : Reader α) : Prop :=
  ∀ ⦃bs bs' rest a⦄, x bs = .ok (a, rest) → bs' <+: bs →
    x bs' = .error .truncated ∨ ∃ rest', x bs' = .ok (a, rest') ∧ rest' <+: rest

namespace Framed

theorem pure (a : α) : Framed (pure a : Reader α) := by
  intro bs bs' rest b h hpre
  obtain ⟨rfl, rfl⟩ := Prod.mk.inj (reader_pure_eq_ok_iff.1 h)
  exact .inr ⟨bs', rfl, hpre⟩

theorem fail (e : FormatError) : Framed (throw e : Reader α) := by
  intro bs bs' rest a h
  cases h

theorem take (n : Nat) : Framed (take n) := by
  intro bs bs' rest taken h hpre
  obtain ⟨hlen, rfl⟩ := take_eq_ok_iff.1 h
  by_cases hlt : bs'.length < n
  · left
    unfold Dump.take
    dsimp only
    rw [if_neg]
    rw [List.length_take]
    omega
  · right
    obtain ⟨rest', rfl⟩ : taken <+: bs' :=
      List.prefix_of_prefix_length_le (List.prefix_append ..) hpre (by omega)
    exact ⟨rest', take_eq_ok_iff.2 ⟨hlen, rfl⟩, (List.prefix_append_right_inj _).1 hpre⟩

theorem bind {x : Reader α} {f : α → Reader β} (hx : Framed x) (hf : ∀ a, Framed (f a)) :
    Framed (x >>= f) := by
  intro bs bs' rest b h hpre
  obtain ⟨a, rest₁, ha, hb⟩ := reader_bind_eq_ok_iff.1 h
  rcases hx ha hpre with htrunc | ⟨rest₁', ha', hpre₁⟩
  · left
    show (x bs' >>= fun p => f p.1 p.2) = _
    rw [htrunc, error_bind]
  · rcases hf a hb hpre₁ with htrunc | ⟨rest', hb', hpre'⟩
    · left
      show (x bs' >>= fun p => f p.1 p.2) = _
      rw [ha', ok_bind, htrunc]
    · exact .inr ⟨rest', reader_bind_eq_ok_iff.2 ⟨a, rest₁', ha', hb'⟩, hpre'⟩

theorem guard {p : Prop} [Decidable p] {x : Reader β} {e : FormatError} {f : α → Reader β}
    (hx : Framed x) : Framed (if p then x else throw e >>= f) := by
  split
  · exact hx
  · exact fail e

theorem number (n : Nat) : Framed (number n) := (take n).bind fun _ => pure _

end Framed

theorem Header.read_framed (w : Width) : Framed (Header.read w) := by
  unfold Header.read
  refine .bind (.take _) fun _ => .guard <| .bind (.number 1) fun _ => .guard <|
    .bind (.number 1) fun _ => .guard <| .bind (.number 1) fun _ => ?_
  split
  · exact .bind (.number 1) fun _ => .guard <| .bind (.number 8) fun _ => .bind (.number 4) fun _ =>
      .bind (.number 4) fun _ => .bind (.number 4) fun _ => .bind (.number 4) fun _ => .pure _
  · exact .fail _

/-! ## Bytes that are missing or left over -/

section

variable [SymbolCode σ] {k : Contents σ}

/-- The header of contents is read from the front of their bytes, whatever follows. -/
theorem Contents.WellFormed.read_header (h : k.WellFormed) (rest : Bytes) :
    ∃ rest', Header.read (SymbolCode.width σ) (k.bytes ++ rest) = .ok (k.header, rest') :=
  ⟨k.frontier.flatMap symbolBytes ++
      (k.nodes.flatMap Node.bytes ++ (k.edges.flatMap Edge.bytes ++ rest)),
    Header.read_eq_ok_iff.2 ⟨h.header, by simp only [Contents.bytes, List.append_assoc]⟩⟩

/-- **Where bytes are missing at the end, they are truncated.** -/
theorem Contents.ofBytes_of_isPrefix (h : Contents.ofBytes bs = .ok k) (hpre : bs' <+: bs)
    (hne : bs' ≠ bs) : (Contents.ofBytes bs' : Except FormatError (Contents σ)) = .error .truncated := by
  obtain ⟨hwf, rfl⟩ := Contents.ofBytes_eq_ok_iff.1 h
  have hlt : bs'.length < k.header.dumpLength (SymbolCode.width σ) := by
    rw [← k.length_bytes]
    exact lt_of_le_of_ne hpre.length_le fun hlen => hne (hpre.eq_of_length hlen)
  obtain ⟨rest, hread⟩ := hwf.read_header []
  rw [List.append_nil] at hread
  unfold Contents.ofBytes
  rcases Header.read_framed _ hread hpre with htrunc | ⟨rest', hread', -⟩
  · rw [htrunc, error_bind]
  · rw [hread', ok_bind]
    dsimp only
    rw [if_pos hlt]
    rfl

/-- **Where bytes are left over, their number is told.** -/
theorem Contents.ofBytes_append (h : Contents.ofBytes bs = .ok k) (hne : bs' ≠ []) :
    (Contents.ofBytes (bs ++ bs') : Except FormatError (Contents σ)) =
      .error (.trailingBytes bs'.length) := by
  obtain ⟨hwf, rfl⟩ := Contents.ofBytes_eq_ok_iff.1 h
  have hlen : (k.bytes ++ bs').length =
      k.header.dumpLength (SymbolCode.width σ) + bs'.length := by
    rw [List.length_append, k.length_bytes]
  have hpos := List.length_pos_iff.2 hne
  obtain ⟨rest, hread⟩ := hwf.read_header bs'
  unfold Contents.ofBytes
  rw [hread, ok_bind]
  dsimp only
  rw [if_neg (by omega), if_pos (by omega), hlen, Nat.add_sub_cancel_left]
  rfl

end

/-! ## The reasons for which bytes are not read -/

/-- Whatever a reader fails with has a property. -/
def Raises (p : FormatError → Prop) (x : Reader α) : Prop := ∀ bs, FailsOnly p (x bs)

namespace Raises

variable {p : FormatError → Prop} {e : FormatError}

theorem pure (a : α) : Raises p (pure a : Reader α) := fun _ => .ok _

theorem fail (he : p e) : Raises p (throw e : Reader α) := fun _ => .error he

theorem bind {x : Reader α} {f : α → Reader β} (hx : Raises p x) (hf : ∀ a, Raises p (f a)) :
    Raises p (x >>= f) :=
  fun bs => FailsOnly.bind (hx bs) fun r _ => hf r.1 r.2

theorem guard {q : Prop} [Decidable q] {x : Reader β} {f : α → Reader β} (he : p e)
    (hx : Raises p x) : Raises p (if q then x else throw e >>= f) := by
  split
  · exact hx
  · exact fail he

theorem liftM {x : Except FormatError α} (hx : FailsOnly p x) :
    Raises p (liftM x : Reader α) := by
  intro bs
  cases x with
  | error e => exact .error (hx e rfl)
  | ok a => exact .ok _

theorem take (ht : p .truncated) (n : Nat) : Raises p (take n) := by
  intro bs
  unfold Dump.take
  dsimp only
  split
  · exact .ok _
  · exact .error ht

theorem number (ht : p .truncated) (n : Nat) : Raises p (number n) :=
  (take ht n).bind fun _ => pure _

theorem many {x : Reader α} (hx : Raises p x) (n : Nat) : Raises p (many n x) := by
  unfold Dump.many
  generalize ([] : List α) = done
  induction n generalizing done with
  | zero => exact pure _
  | succ n ih => exact hx.bind fun a => ih (a :: done)

end Raises

theorem raises_header (w : Width) : Raises (·.isAboutGraph = false) (Header.read w) := by
  have hnumber : ∀ n, Raises (·.isAboutGraph = false) (number n) := .number (by rfl)
  unfold Header.read
  refine .bind (.take (by rfl) _) fun _ => .guard rfl <| .bind (hnumber 1) fun _ => .guard rfl <|
    .bind (hnumber 1) fun _ => .guard rfl <| .bind (hnumber 1) fun _ => ?_
  split
  · exact .bind (hnumber 1) fun _ => .guard rfl <| .bind (hnumber 8) fun _ =>
      .bind (hnumber 4) fun _ => .bind (hnumber 4) fun _ => .bind (hnumber 4) fun _ =>
        .bind (hnumber 4) fun _ => .pure _
  · exact .fail rfl

theorem raises_node : Raises (·.isAboutGraph = false) readNode := by
  unfold readNode
  exact .bind (.number (by rfl) 1) fun _ => .guard rfl <| .bind (.number (by rfl) 8) fun _ => .pure _

theorem checkOrder_failsOnly (previous? : Option (Edge σ)) (e : Edge σ) :
    FailsOnly (·.isAboutGraph = false) (checkOrder previous? e) := by
  unfold checkOrder
  split
  · exact .ok _
  · split
    · exact .error rfl
    · split
      · exact .error rfl
      · exact .ok _

section

variable [SymbolCode σ]

omit [Symbol σ] in
theorem raises_symbol : Raises (·.isAboutGraph = false) (readSymbol : Reader σ) := by
  unfold readSymbol
  refine .bind (.number (by rfl) _) fun _ => ?_
  split
  · exact .pure _
  · exact .fail rfl

theorem raises_edge (nodes : Nat) (previous? : Option (Edge σ)) :
    Raises (·.isAboutGraph = false) (readEdge nodes previous?) := by
  unfold readEdge
  exact .bind (.number (by rfl) 4) fun _ => .bind raises_symbol fun _ => .bind (.number (by rfl) 4) fun _ =>
    .guard rfl <| .guard rfl <| .bind (.liftM (checkOrder_failsOnly _ _)) fun _ => .pure _

theorem raises_edges (nodes n : Nat) (done : List (Edge σ)) :
    Raises (·.isAboutGraph = false) (readEdgesFrom nodes done n) := by
  induction n generalizing done with
  | zero => exact .pure _
  | succ n ih => exact .bind (raises_edge nodes done.head?) fun e => ih (e :: done)

theorem raises_body (h : Header) :
    Raises (·.isAboutGraph = false) (Contents.readBody h : Reader (Contents σ)) := by
  unfold Contents.readBody
  exact .bind (.many raises_symbol _) fun _ => .bind (.many raises_node _) fun _ =>
    .bind (raises_edges _ _ _) fun _ => .pure _

/-- **No bytes are left unread for a reason that tells of the graph.** -/
theorem Contents.ofBytes_failsOnly (bs : Bytes) : FailsOnly (·.isAboutGraph = false)
    (Contents.ofBytes bs : Except FormatError (Contents σ)) := by
  unfold Contents.ofBytes
  exact .bind (raises_header _ bs) fun _ _ => .refuse (fun _ => rfl) fun _ =>
    .refuse (fun _ => rfl) fun _ => .refuse (fun _ => rfl) fun _ => .refuse (fun _ => rfl) fun _ =>
      .bind (raises_body _ _) fun _ _ => .ok _

end

end Dump

end WordGraph
