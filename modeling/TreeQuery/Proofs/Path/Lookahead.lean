import TreeQuery.Proofs.Path.Tiling
import Mathlib.Data.Stream.Init

/-!
# Looking ahead

A client of a lexer may look at the next token before it reads it, and may hold a token back that it has just read. None
of this shows: the client gets the tokens of the text in their order, as calls of `next` alone return them.

* `answers`: the tokens of a text, then its end again and again, or its error;
* `Lexer.Offers`: the answers that a lexer has still to give, with what it holds;
* `Lexer.trace`: calls of a client with their replies, up to the first that fails;
* `Lexer.Transcript`: the replies of a client that only has a place in the answers;
* `Lexer.transcript_trace`: the replies of a lexer are such replies;
* `Lexer.Transparent`, `Lexer.trace_transparent`: what this means for the tokens, for looking ahead and for errors.
-/

namespace TreeQuery

set_option autoImplicit false

/-! ## The answers of a text -/

/-- What calls of `next` return, one after the other. -/
abbrev Answers : Type := Stream' (Except SyntaxError Lexeme)

def Ending.answer : Ending → Except SyntaxError Lexeme
  | done pos => .ok ⟨.endOfText, pos⟩
  | failed e => .error e

/-- The tokens of a text in their order, then its end again and again, or the error that it ends in. -/
def answers (read : List Lexeme × Ending) : Answers := read.1.map .ok ++ₛ Stream'.const read.2.answer

namespace Lexer

/-- The answers that the lexer has still to give: the token that it holds, and those of the rest of the text. -/
def remaining (l : Lexer) : Answers :=
  match l.held with
  | none => answers (lexemes l.pos (l.input.drop l.pos))
  | some lexeme => Stream'.cons (.ok lexeme) (answers (lexemes l.pos (l.input.drop l.pos)))

/-- The lexer stands inside its text and has these answers still to give. -/
structure Offers (l : Lexer) (s : Answers) : Prop where
  pos_le : l.pos ≤ l.input.length
  remaining_eq : l.remaining = s

theorem offers_start (input : Text) : (start input).Offers (answers (lexemes 0 input)) := ⟨Nat.zero_le _, rfl⟩

theorem offers_of_not_held {l : Lexer} (hl : l.held = none) (hpos : l.pos ≤ l.input.length) :
    l.Offers (answers (lexemes l.pos (l.input.drop l.pos))) := by
  refine ⟨hpos, ?_⟩
  rw [remaining, hl]

namespace Offers

variable {l : Lexer} {s : Answers} {lexeme : Lexeme}

/-! ## One call -/

/-- A token that is held comes before all others. -/
theorem hold (h : l.Offers s.tail) (hl : l.held = none) (hs : s.head = .ok lexeme) :
    { l with held := some lexeme }.Offers s := by
  refine ⟨h.pos_le, ?_⟩
  have hremaining := h.remaining_eq
  rw [remaining, hl] at hremaining
  dsimp only at hremaining
  rw [remaining]
  dsimp only
  rw [hremaining, ← hs, Stream'.eta]

/-- A call of `next` gives the first answer and keeps the others. -/
theorem next (h : l.Offers s) :
    (∃ lexeme l', s.head = .ok lexeme ∧ l.next = (.ok lexeme, l') ∧ l'.held = none ∧ l'.Offers s.tail) ∨
    ∃ e l', s.head = .error e ∧ l.next = (.error e, l') := by
  obtain ⟨hpos, rfl⟩ := h
  cases hl : l.held with
  | some lexeme =>
      have hnext : l.next = (.ok lexeme, { l with held := none }) := by rw [Lexer.next, hl]
      rw [remaining, hl]
      exact .inl ⟨lexeme, _, rfl, hnext, rfl, offers_of_not_held rfl hpos⟩
  | none =>
      rw [(offers_of_not_held hl hpos).remaining_eq]
      cases firstReading hpos with
      | done _ hscan hlexemes =>
          -- The end of the text comes again and again: nothing remains of the text behind it.
          have hagain : lexemes l.input.length (l.input.drop l.input.length) = ([], .done l.input.length) := by
            rw [List.drop_length, lexemes]
          have hoffers := offers_of_not_held (l := { l with pos := l.input.length }) hl (Nat.le_refl _)
          rw [hagain] at hoffers
          rw [hlexemes]
          exact .inl ⟨_, _, rfl, next_of_scan hl hscan, hl, hoffers⟩
      | failed gap e stop _ _ _ hscan hlexemes =>
          rw [hlexemes]
          exact .inr ⟨e, _, rfl, next_of_scan hl hscan⟩
      | token gap source lexeme stop hgap _ hsource _ hscan hlexemes =>
          have hoffers := offers_of_not_held (l := { l with pos := stop }) hl (hsource.stop_le (hgap.stop_le hpos))
          rw [hlexemes]
          exact .inl ⟨lexeme, _, rfl, next_of_scan hl hscan, hl, hoffers⟩

/-- A call of `peek` gives the first answer and keeps all. -/
theorem peek (h : l.Offers s) :
    (∃ lexeme l', s.head = .ok lexeme ∧ l.peek = (.ok lexeme, l') ∧ l'.Offers s) ∨
    ∃ e l', s.head = .error e ∧ l.peek = (.error e, l') := by
  rcases h.next with ⟨lexeme, l', hs, hnext, hl', hoffers⟩ | ⟨e, l', hs, hnext⟩
  · exact .inl ⟨lexeme, _, hs, by rw [Lexer.peek, hnext], hoffers.hold hl' hs⟩
  · exact .inr ⟨e, l', hs, by rw [Lexer.peek, hnext]⟩

/-- A token that was just read can be held back, and then all is as before it was read. -/
theorem push (h : l.Offers s.tail) (hl : l.held = none) (hs : s.head = .ok lexeme) :
    ∃ l', l.push? (some lexeme) = some l' ∧ l'.Offers s :=
  ⟨_, by simp [push?, hl], h.hold hl hs⟩

end Offers

/-! ## Calls of a client -/

inductive Call where
  | next
  | peek
  /-- The token that was read last is held back. -/
  | push
deriving DecidableEq

inductive Reply where
  | token (lexeme : Lexeme)
  | held
  /-- A token was held already. -/
  | refused
  | failed (e : SyntaxError)
deriving DecidableEq

/-- Each push directly follows a call of `next`. -/
inductive PushesAfterNext : List Call → Prop where
  | nil : PushesAfterNext []
  | peek {calls : List Call} : PushesAfterNext calls → PushesAfterNext (.peek :: calls)
  | next {calls : List Call} : PushesAfterNext calls → PushesAfterNext (.next :: calls)
  | push {calls : List Call} : PushesAfterNext calls → PushesAfterNext (.next :: .push :: calls)

/-- The calls with their replies, up to the first that fails; `last` is the token that `next` returned last. -/
def trace (l : Lexer) (last : Option Lexeme) : List Call → List (Call × Reply)
  | [] => []
  | .next :: calls =>
    match l.next with
    | (.ok lexeme, l') => (.next, .token lexeme) :: trace l' (some lexeme) calls
    | (.error e, _) => [(.next, .failed e)]
  | .peek :: calls =>
    match l.peek with
    | (.ok lexeme, l') => (.peek, .token lexeme) :: trace l' last calls
    | (.error e, _) => [(.peek, .failed e)]
  | .push :: calls =>
    match l.push? last with
    | some l' => (.push, .held) :: trace l' last calls
    | none => [(.push, .refused)]

/-- The replies to a client that stands before the answers `s`: a look leaves it there, reading a token takes it behind
the token, and holding the token back takes it to where it was. -/
inductive Transcript : Answers → List Call → List (Call × Reply) → Prop where
  | nil {s : Answers} : Transcript s [] []
  | failed {s : Answers} {call : Call} {calls : List Call} {e : SyntaxError} : s.head = .error e → call ≠ .push →
      Transcript s (call :: calls) [(call, .failed e)]
  | peek {s : Answers} {lexeme : Lexeme} {calls : List Call} {replies : List (Call × Reply)} : s.head = .ok lexeme →
      Transcript s calls replies → Transcript s (.peek :: calls) ((.peek, .token lexeme) :: replies)
  | next {s : Answers} {lexeme : Lexeme} {calls : List Call} {replies : List (Call × Reply)} : s.head = .ok lexeme →
      Transcript s.tail calls replies → Transcript s (.next :: calls) ((.next, .token lexeme) :: replies)
  | push {s : Answers} {lexeme : Lexeme} {calls : List Call} {replies : List (Call × Reply)} : s.head = .ok lexeme →
      Transcript s calls replies →
      Transcript s (.next :: .push :: calls) ((.next, .token lexeme) :: (.push, .held) :: replies)

theorem transcript_trace {calls : List Call} (h : PushesAfterNext calls) {l : Lexer} {s : Answers} (hl : l.Offers s)
    (last : Option Lexeme) : Transcript s calls (l.trace last calls) := by
  induction h generalizing l s last with
  | nil => exact .nil
  | peek _ ih =>
      rcases hl.peek with ⟨lexeme, l', hs, hpeek, hl'⟩ | ⟨e, l', hs, hpeek⟩
      · rw [trace, hpeek]
        exact .peek hs (ih hl' last)
      · rw [trace, hpeek]
        exact .failed hs nofun
  | next _ ih =>
      rcases hl.next with ⟨lexeme, l', hs, hnext, -, hl'⟩ | ⟨e, l', hs, hnext⟩
      · rw [trace, hnext]
        exact .next hs (ih hl' (some lexeme))
      · rw [trace, hnext]
        exact .failed hs nofun
  | push _ ih =>
      rcases hl.next with ⟨lexeme, l', hs, hnext, hheld, hl'⟩ | ⟨e, l', hs, hnext⟩
      · obtain ⟨l'', hpush, hl''⟩ := hl'.push hheld hs
        rw [trace, hnext]
        dsimp only
        rw [trace, hpush]
        exact .push hs (ih hl'' (some lexeme))
      · rw [trace, hnext]
        exact .failed hs nofun

/-! ## What the client sees -/

/-- The tokens that were read and not held back. -/
def taken : List (Call × Reply) → List Lexeme
  | [] => []
  | (.next, .token lexeme) :: replies =>
    if replies.head? = some (.push, .held) then taken replies else lexeme :: taken replies
  | _ :: replies => taken replies

/-- What the replies `replies` to the calls `calls` show of the answers `plain`. -/
structure Transparent (plain : Answers) (calls : List Call) (replies : List (Call × Reply)) : Prop where
  /-- The tokens that the client keeps are the first ones, in their order. -/
  taken_eq : (taken replies).map .ok = plain.take (taken replies).length
  /-- Every token that is returned, also one that is held back then, is the one whose turn it is. -/
  token_eq : ∀ before call lexeme after, replies = before ++ (call, .token lexeme) :: after →
    plain.get (taken before).length = .ok lexeme
  /-- A look shows the token that the following call of `next` returns. -/
  peek_eq : ∀ before lexeme between reply after,
    replies = before ++ (.peek, .token lexeme) :: (between ++ (.next, reply) :: after) →
    (∀ entry ∈ between, entry.1 ≠ .next) → reply = .token lexeme
  /-- A token can always be held back. -/
  not_refused : ∀ call, (call, .refused) ∉ replies
  /-- A call that fails reports the error that comes after the tokens that the client keeps. -/
  failed_eq : ∀ call e, (call, .failed e) ∈ replies → plain.get (taken replies).length = .error e
  /-- The calls have their replies in order, and all of them have one unless a call fails. -/
  asked_isPrefix : replies.map Prod.fst <+: calls
  asked_eq : (∀ call e, (call, .failed e) ∉ replies) → replies.map Prod.fst = calls

namespace Transcript

variable {s : Answers} {calls : List Call} {replies : List (Call × Reply)}

theorem head?_ne_push (h : Transcript s calls replies) (reply : Reply) : replies.head? ≠ some (.push, reply) := by
  cases h with
  | nil => simp
  | failed _ hcall => simp [hcall]
  | peek => simp
  | next => simp
  | push => simp

theorem taken_next {lexeme : Lexeme} (h : Transcript s calls replies) :
    taken ((.next, .token lexeme) :: replies) = lexeme :: taken replies := by
  rw [taken, if_neg (h.head?_ne_push .held)]

theorem taken_eq_nil {entries : List (Call × Reply)} (h : ∀ entry ∈ entries, entry.1 ≠ .next) :
    taken entries = [] := by
  induction entries with
  | nil => rfl
  | cons entry entries ih =>
      obtain ⟨hentry, hentries⟩ := List.forall_mem_cons.mp h
      obtain ⟨call, reply⟩ := entry
      cases call with
      | next => exact absurd rfl hentry
      | peek => exact ih hentries
      | push => exact ih hentries

theorem taken_failed (call : Call) (e : SyntaxError) : taken [(call, .failed e)] = [] := by
  cases call <;> rfl

theorem taken_eq (h : Transcript s calls replies) : (taken replies).map .ok = s.take (taken replies).length := by
  induction h with
  | nil => rfl
  | @failed _ call _ e => rw [taken_failed, List.map_nil, List.length_nil, Stream'.take_zero]
  | peek _ _ ih => exact ih
  | next hs h ih => rw [h.taken_next, List.map_cons, ih, List.length_cons, Stream'.take_succ, hs]
  | push _ _ ih => exact ih

/-- After the first replies the client stands behind the tokens that it has kept. The cut is not made between the call
that reads a token and the one that holds it back. -/
theorem of_append {before rest : List (Call × Reply)} (h : Transcript s calls (before ++ rest))
    (hrest : rest.head? ≠ some (.push, .held)) :
    ∃ calls', Transcript (s.drop (taken before).length) calls' rest := by
  generalize hreplies : before ++ rest = replies at h
  induction h generalizing before with
  | nil =>
      obtain ⟨rfl, rfl⟩ := List.append_eq_nil_iff.mp hreplies
      exact ⟨[], .nil⟩
  | failed hs hcall =>
      rcases List.append_eq_singleton_iff.mp hreplies with ⟨rfl, rfl⟩ | ⟨rfl, rfl⟩
      · exact ⟨[_], .failed hs hcall⟩
      · exact ⟨[], .nil⟩
  | peek hs h ih =>
      cases before with
      | nil =>
          obtain rfl : rest = _ := hreplies
          exact ⟨_, .peek hs h⟩
      | cons entry before =>
          obtain ⟨rfl, hmore⟩ := List.cons.inj hreplies
          exact (ih hmore :)
  | next hs h ih =>
      cases before with
      | nil =>
          obtain rfl : rest = _ := hreplies
          exact ⟨_, .next hs h⟩
      | cons entry before =>
          obtain ⟨rfl, rfl⟩ := List.cons.inj hreplies
          have hkept : before.head? ≠ some (.push, .held) := by
            intro hhead
            obtain ⟨more, rfl⟩ := List.head?_eq_some_iff.mp hhead
            exact h.head?_ne_push .held rfl
          rw [taken, if_neg hkept, List.length_cons, ← Stream'.drop_tail']
          exact ih rfl
  | push hs h ih =>
      match before with
      | [] =>
          obtain rfl : rest = _ := hreplies
          exact ⟨_, .push hs h⟩
      | [entry] =>
          obtain ⟨-, rfl⟩ := List.cons.inj hreplies
          exact absurd rfl hrest
      | first :: second :: before =>
          obtain ⟨rfl, hsecond⟩ := List.cons.inj hreplies
          obtain ⟨rfl, hmore⟩ := List.cons.inj hsecond
          exact (ih hmore :)

/-- The first call of `next` returns the first answer. -/
theorem next_eq {lexeme : Lexeme} {between after : List (Call × Reply)} {reply : Reply}
    (h : Transcript s calls (between ++ (.next, reply) :: after)) (hs : s.head = .ok lexeme)
    (hbetween : ∀ entry ∈ between, entry.1 ≠ .next) : reply = .token lexeme := by
  obtain ⟨calls', hafter⟩ := h.of_append (by simp)
  rw [taken_eq_nil hbetween, List.length_nil, Stream'.drop_zero] at hafter
  cases hafter with
  | failed he => cases hs.symm.trans he
  | next ht | push ht =>
      cases hs.symm.trans ht
      rfl

theorem token_eq {call : Call} {lexeme : Lexeme} {before after : List (Call × Reply)}
    (h : Transcript s calls (before ++ (call, .token lexeme) :: after)) :
    s.get (taken before).length = .ok lexeme := by
  obtain ⟨calls', h⟩ := h.of_append (by simp)
  rw [← Stream'.head_drop]
  cases h with
  | peek hs => exact hs
  | next hs => exact hs
  | push hs => exact hs

theorem peek_eq {lexeme : Lexeme} {before between after : List (Call × Reply)} {reply : Reply}
    (h : Transcript s calls (before ++ (.peek, .token lexeme) :: (between ++ (.next, reply) :: after)))
    (hbetween : ∀ entry ∈ between, entry.1 ≠ .next) : reply = .token lexeme := by
  obtain ⟨calls', h⟩ := h.of_append (by simp)
  cases h with
  | peek hs h => exact h.next_eq hs hbetween

theorem not_refused (h : Transcript s calls replies) (call : Call) : (call, .refused) ∉ replies := by
  induction h with
  | nil => simp
  | failed => simp
  | peek _ _ ih | next _ _ ih | push _ _ ih => simpa using ih

theorem failed_eq {call : Call} {e : SyntaxError} (h : Transcript s calls replies)
    (hmem : (call, .failed e) ∈ replies) : s.get (taken replies).length = .error e := by
  induction h with
  | nil => cases hmem
  | failed hs =>
      cases List.mem_singleton.mp hmem
      rw [taken_failed]
      exact hs
  | peek _ _ ih => exact ih (by simpa using hmem)
  | next _ h ih =>
      rw [h.taken_next, List.length_cons, Stream'.get_succ]
      exact ih (by simpa using hmem)
  | push _ _ ih => exact ih (by simpa using hmem)

theorem asked_isPrefix (h : Transcript s calls replies) : replies.map Prod.fst <+: calls := by
  induction h with
  | nil => exact List.nil_prefix
  | failed => exact List.cons_prefix_cons.mpr ⟨rfl, List.nil_prefix⟩
  | peek _ _ ih | next _ _ ih => exact List.cons_prefix_cons.mpr ⟨rfl, ih⟩
  | push _ _ ih => exact List.cons_prefix_cons.mpr ⟨rfl, List.cons_prefix_cons.mpr ⟨rfl, ih⟩⟩

theorem asked_eq (h : Transcript s calls replies) (hmem : ∀ call e, (call, .failed e) ∉ replies) :
    replies.map Prod.fst = calls := by
  induction h with
  | nil => rfl
  | failed => exact absurd (List.mem_singleton_self _) (hmem _ _)
  | peek _ _ ih | next _ _ ih | push _ _ ih => simpa using ih (by simpa using hmem)

theorem transparent (h : Transcript s calls replies) : Transparent s calls replies where
  taken_eq := h.taken_eq
  token_eq _ _ _ _ hreplies := (hreplies ▸ h).token_eq
  peek_eq _ _ _ _ _ hreplies hbetween := (hreplies ▸ h).peek_eq hbetween
  not_refused := h.not_refused
  failed_eq _ _ hmem := h.failed_eq hmem
  asked_isPrefix := h.asked_isPrefix
  asked_eq := h.asked_eq

end Transcript

/-- **Looking ahead does not show. For every text, and for every sequence of calls in which each push directly follows
a call of `next` and holds back its token: the tokens that a client keeps are the first ones that calls of `next` alone
return, followed by the end as often as it is asked for; a look shows the token that the following call of `next`
returns; a token can always be held back; and the first call that fails does so with the error that comes at that
place.** -/
theorem trace_transparent (input : Text) {calls : List Call} (h : PushesAfterNext calls) :
    (start input).Reads (lexemes 0 input).1 (lexemes 0 input).2 ∧
    Transparent (answers (lexemes 0 input)) calls ((start input).trace none calls) :=
  ⟨reads_lexemes (l := start input) rfl (Nat.zero_le _), (transcript_trace h (offers_start input) none).transparent⟩

theorem trace_transparent_open_quote :
    PushesAfterNext [.peek, .next, .push, .peek, .next, .next, .peek] ∧
    (start "a/'").trace none [.peek, .next, .push, .peek, .next, .next, .peek] =
      [(.peek, .token ⟨.ident "a", 0⟩), (.next, .token ⟨.ident "a", 0⟩), (.push, .held),
        (.peek, .token ⟨.ident "a", 0⟩), (.next, .token ⟨.ident "a", 0⟩), (.next, .token ⟨.slash, 1⟩),
        (.peek, .failed ⟨.unterminated 0x27, 2⟩)] ∧
    Transparent (answers (lexemes 0 "a/'")) [.peek, .next, .push, .peek, .next, .next, .peek]
      ((start "a/'").trace none [.peek, .next, .push, .peek, .next, .next, .peek]) := by
  have hcalls : PushesAfterNext [.peek, .next, .push, .peek, .next, .next, .peek] :=
    .peek (.push (.peek (.next (.next (.peek .nil)))))
  exact ⟨hcalls, by decide, (trace_transparent "a/'" hcalls).2⟩

end Lexer

end TreeQuery
