import TreeQuery.Proofs.Path.Report
import Mathlib.Data.List.TakeWhile

/-!
# Tokens tile the text

The tokens that are read from a text, one after the other, cover it: between them lie blanks only, and each token starts
where its source does.

* `Token.Source`: the texts that a token can be read from;
* `Token.Longest`, `Stuck`: the longest source at the front of a text, and a front where no source starts;
* `longest_of_readToken`, `stuck_of_readToken`: `readToken` finds the one or reports the other;
* `Slice`: the bytes of the text between two positions;
* `FirstReading`: what one reading of a text comes to;
* `Tiles`: blanks and sources in turns, with the tokens that they make;
* `Lexer.Reads`: calls of `next` up to the end of the text or the first error;
* `Lexer.reads_tiling`: what the calls return tiles the text.
-/

namespace TreeQuery

set_option autoImplicit false

/-! ## Sources of tokens -/

/-- The texts that a token can be read from: its symbol, or a string in quotes of either kind. -/
inductive Token.Source : Token → Text → Prop where
  | fixed {token : Token} : token.isFixed → Source token token.symbol
  | word {w : Text} : IsWord w → Source (.ident w) (symbol (.ident w))
  | number {digits : Text} : digits ≠ [] → (∀ b ∈ digits, Byte.isDigit b) →
      Source (.number digits) (symbol (.number digits))
  | string {quote : UInt8} {body v : Text} : quote = 0x27 ∨ quote = 0x22 → BetweenQuotes quote body v →
      Source (.string v) (quote :: body ++ [quote])

theorem Token.Source.ne_endOfText {token : Token} {s : Text} (h : token.Source s) : token ≠ .endOfText := by
  rintro rfl
  cases h with
  | fixed h => cases h

/-! ## Words -/

/-- What follows a text can only make its first word longer. -/
theorem readIdent_isPrefix_append (r u : Text) : readIdent r <+: readIdent (r ++ u) := by
  fun_induction readIdent r with
  | case1 => exact List.nil_prefix
  | case2 b r h ih =>
      rw [List.cons_append, readIdent, if_pos h]
      exact List.cons_prefix_cons.mpr ⟨rfl, ih⟩
  | case3 b r h hdot ih =>
      have hhead : (r ++ u).head?.any Byte.isAlnum := by
        cases r with
        | nil => exact absurd hdot.2 (by decide)
        | cons c r => exact hdot.2
      rw [List.cons_append, readIdent, if_neg h, if_pos ⟨hdot.1, hhead⟩]
      exact List.cons_prefix_cons.mpr ⟨rfl, ih⟩
  | case4 => exact List.nil_prefix

/-! ## Single tokens -/

/-- The token is read from the front of the text, and no other token has a longer source there. -/
def Token.Longest (token : Token) (s t : Text) : Prop :=
  token.Source s ∧ ∀ other longer, Token.Source other longer → longer <+: t → longer.length ≤ s.length

/-- The text goes on, with no blank, and no token is read from its front. -/
def Stuck (t : Text) : Prop :=
  (∃ b r, t = b :: r ∧ Byte.isSpace b = false) ∧ ∀ token s, Token.Source token s → ¬ s <+: t

/-- A token that is found is read from the bytes that it takes in. -/
theorem source_of_readToken {b : UInt8} {r : Text} {token : Token} {n : Nat} (h : readToken b r = .ok (token, n)) :
    token.Source (b :: r.take n) := by
  have hfound := found_readToken b r
  rw [h] at hfound
  cases hfound with
  | single hfixed hsymbol =>
      rw [List.take_zero, ← hsymbol]
      exact .fixed hfixed
  | pair hc hfixed hsymbol =>
      obtain ⟨r, rfl⟩ := List.head?_eq_some_iff.mp hc
      rw [List.take_succ_cons, List.take_zero, ← hsymbol]
      exact .fixed hfixed
  | string hquote hread =>
      obtain ⟨body, rest, rfl, rfl, hbody⟩ := betweenQuotes_of_readString? hread
      rw [List.take_length_add_append]
      exact .string hquote hbody
  | number hdigit =>
      rw [← List.prefix_iff_eq_take.mp (List.takeWhile_prefix _)]
      exact .number (List.cons_ne_nil _ _) (List.forall_mem_cons.mpr ⟨hdigit, fun c hc => List.mem_takeWhile_imp hc⟩)
  | star hstar =>
      rw [← List.prefix_iff_eq_take.mp (readIdent_isPrefix r), hstar]
      exact .fixed rfl
  | word =>
      rw [← List.prefix_iff_eq_take.mp (readIdent_isPrefix r)]
      exact .word (isWord_of_readToken h)

/-- Where the symbol of a token starts, a token is found that takes in as much at least. -/
theorem readToken_symbol {token : Token} (h : token.isFixed) : ∃ c cs, token.symbol = c :: cs ∧
    ∀ rest, ∃ found n, readToken c (cs ++ rest) = .ok (found, n) ∧ cs.length ≤ n := by
  cases token with
  | ident | string | number | endOfText => cases h
  | doubleSlash | dotDot | axisMark | notEqual | contains =>
      exact ⟨_, [_], rfl, fun rest => ⟨_, 1, rfl, Nat.le_refl 1⟩⟩
  | _ => exact ⟨_, [], rfl, fun rest => ⟨_, _, rfl, Nat.zero_le _⟩⟩

theorem Token.Source.ne_nil {token : Token} {s : Text} (h : token.Source s) : s ≠ [] := by
  cases h with
  | fixed hfixed =>
      obtain ⟨c, cs, hsymbol, -⟩ := readToken_symbol hfixed
      exact hsymbol ▸ List.cons_ne_nil c cs
  | word hw =>
      obtain ⟨b, r, rfl, -⟩ := hw
      exact List.cons_ne_nil b r
  | number hne => exact hne
  | string => exact List.cons_ne_nil _ _

/-- Where a source starts, a token is found that takes in as much at least. -/
theorem readToken_of_source {token : Token} {s r : Text} {b : UInt8} (h : token.Source s) (hs : s <+: b :: r) :
    ∃ found n, readToken b r = .ok (found, n) ∧ s.length ≤ n + 1 := by
  obtain ⟨rest, hrest⟩ := hs
  cases h with
  | fixed hfixed =>
      obtain ⟨c, cs, hsymbol, hread⟩ := readToken_symbol hfixed
      rw [hsymbol] at hrest ⊢
      obtain ⟨rfl, rfl⟩ := List.cons.inj hrest
      obtain ⟨found, n, hfound, hn⟩ := hread rest
      exact ⟨found, n, hfound, Nat.succ_le_succ hn⟩
  | word hw =>
      obtain ⟨c, w, rfl, hc, hw, -⟩ := hw
      obtain ⟨rfl, rfl⟩ := List.cons.inj hrest
      have hlength := (readIdent_isPrefix_append w rest).length_le
      rw [hw] at hlength
      exact ⟨_, _, readToken_of_startsIdent hc _, Nat.succ_le_succ hlength⟩
  | number hne hdigits =>
      obtain ⟨c, digits, rfl⟩ := List.exists_cons_of_ne_nil hne
      obtain ⟨rfl, rfl⟩ := List.cons.inj hrest
      rw [List.forall_mem_cons] at hdigits
      refine ⟨_, _, readToken_of_isDigit hdigits.1 _, Nat.succ_le_succ ?_⟩
      change digits.length ≤ ((digits ++ rest).takeWhile Byte.isDigit).length
      rw [List.takeWhile_append_of_pos hdigits.2, List.length_append]
      exact Nat.le_add_right _ _
  | @string quote body v hquote hbody =>
      obtain ⟨rfl, rfl⟩ := List.cons.inj hrest
      have hescape : quote ≠ 0x5c := by
        rintro rfl
        exact absurd hquote (by decide)
      have hread := hbody.readString? hescape rest
      refine ⟨.string v, body.length + 1, readToken_of_quote hquote ?_, by simp⟩
      simpa using hread

/-- A token that is found is the longest at the front of the text. -/
theorem longest_of_readToken {b : UInt8} {r : Text} {token : Token} {n : Nat} (h : readToken b r = .ok (token, n)) :
    token.Longest (b :: r.take n) (b :: r) := by
  have hn := fitsIn_readToken b r token n h
  refine ⟨source_of_readToken h, fun other longer hother hlonger => ?_⟩
  obtain ⟨found, m, hfound, hm⟩ := readToken_of_source hother hlonger
  obtain ⟨rfl, rfl⟩ := Prod.mk.inj (Except.ok.inj (h.symm.trans hfound))
  rwa [List.length_cons, List.length_take_of_le hn]

theorem stuck_of_readToken {b : UInt8} {r : Text} {e : Cause × Nat} (h : readToken b r = .error e)
    (hspace : Byte.isSpace b = false) : Stuck (b :: r) := by
  refine ⟨⟨b, r, rfl, hspace⟩, fun token s hs hprefix => ?_⟩
  obtain ⟨found, n, hfound, -⟩ := readToken_of_source hs hprefix
  cases h.symm.trans hfound

/-! ## One reading -/

/-- The bytes of the text from `start` up to `stop`. -/
structure Slice (input : Text) (start stop : Nat) (piece : Text) : Prop where
  drop_eq : input.drop start = piece ++ input.drop stop
  stop_eq : stop = start + piece.length

def Blank (t : Text) : Prop := ∀ b ∈ t, Byte.isSpace b

theorem drop_succ_of_drop {input r : Text} {pos : Nat} {b : UInt8} (h : input.drop pos = b :: r) :
    input.drop (pos + 1) = r := by
  rw [← List.tail_drop, h, List.tail_cons]

namespace Slice

variable {input piece : Text} {start stop : Nat}

theorem empty (input : Text) (pos : Nat) : Slice input pos pos [] := ⟨rfl, rfl⟩

theorem of_cons {b : UInt8} {r : Text} (h : input.drop start = b :: r) {n : Nat} (hn : n ≤ r.length) :
    Slice input start (start + 1 + n) (b :: r.take n) := by
  refine ⟨?_, ?_⟩
  · rw [h, ← List.drop_drop, drop_succ_of_drop h, List.cons_append, List.take_append_drop]
  · rw [List.length_cons, List.length_take_of_le hn]
    omega

theorem cons {b : UInt8} {r : Text} (h : Slice input (start + 1) stop piece) (hb : input.drop start = b :: r) :
    Slice input start stop (b :: piece) := by
  refine ⟨?_, ?_⟩
  · rw [hb, List.cons_append, ← h.drop_eq, drop_succ_of_drop hb]
  · rw [h.stop_eq, List.length_cons]
    omega

theorem le (h : Slice input start stop piece) : start ≤ stop := by
  rw [h.stop_eq]
  exact Nat.le_add_right _ _

theorem lt (h : Slice input start stop piece) (hne : piece ≠ []) : start < stop := by
  rw [h.stop_eq]
  exact Nat.lt_add_of_pos_right (List.length_pos_of_ne_nil hne)

theorem stop_le (h : Slice input start stop piece) (hstart : start ≤ input.length) : stop ≤ input.length := by
  have hlength := congrArg List.length h.drop_eq
  rw [List.length_append, List.length_drop, List.length_drop] at hlength
  have hstop := h.stop_eq
  omega

end Slice

/-- What one reading of a text, from `pos` on, comes to after the blanks: the end, an error, or a token and what is read
after it. -/
inductive FirstReading (input : Text) (pos : Nat) : Prop where
  | done : Blank (input.drop pos) →
      scan pos (input.drop pos) = (.ok ⟨.endOfText, input.length⟩, input.length) →
      lexemes pos (input.drop pos) = ([], .done input.length) → FirstReading input pos
  | failed (gap : Text) (e : SyntaxError) (stop : Nat) : Slice input pos e.pos gap → Blank gap →
      Stuck (input.drop e.pos) → scan pos (input.drop pos) = (.error e, stop) →
      lexemes pos (input.drop pos) = ([], .failed e) → FirstReading input pos
  | token (gap s : Text) (l : Lexeme) (stop : Nat) : Slice input pos l.pos gap → Blank gap →
      Slice input l.pos stop s → l.token.Longest s (input.drop l.pos) →
      scan pos (input.drop pos) = (.ok l, stop) →
      lexemes pos (input.drop pos) =
        (l :: (lexemes stop (input.drop stop)).1, (lexemes stop (input.drop stop)).2) → FirstReading input pos

theorem FirstReading.blank {input r : Text} {pos : Nat} {b : UInt8} (h : FirstReading input (pos + 1))
    (hb : input.drop pos = b :: r) (hspace : Byte.isSpace b = true) : FirstReading input pos := by
  have hr := drop_succ_of_drop hb
  have hscan : scan pos (input.drop pos) = scan (pos + 1) (input.drop (pos + 1)) := by
    rw [hb, scan, if_pos hspace, hr]
  have hlexemes : lexemes pos (input.drop pos) = lexemes (pos + 1) (input.drop (pos + 1)) := by
    rw [hb, lexemes, if_pos hspace, hr]
  cases h with
  | done hgap hs hl =>
      refine .done ?_ (hscan.trans hs) (hlexemes.trans hl)
      rw [hb]
      exact List.forall_mem_cons.mpr ⟨hspace, hr ▸ hgap⟩
  | failed gap e stop hslice hgap hstuck hs hl =>
      exact .failed (b :: gap) e stop (hslice.cons hb) (List.forall_mem_cons.mpr ⟨hspace, hgap⟩) hstuck
        (hscan.trans hs) (hlexemes.trans hl)
  | token gap s l stop hslice hgap hsource hlongest hs hl =>
      exact .token (b :: gap) s l stop (hslice.cons hb) (List.forall_mem_cons.mpr ⟨hspace, hgap⟩) hsource hlongest
        (hscan.trans hs) (hlexemes.trans hl)

theorem firstReading {input : Text} {pos : Nat} (hpos : pos ≤ input.length) : FirstReading input pos := by
  generalize ht : input.drop pos = t
  induction t generalizing pos with
  | nil =>
      have hlength : input.length = pos := Nat.le_antisymm (List.drop_eq_nil_iff.mp ht) hpos
      refine .done ?_ ?_ ?_
      · rw [ht]
        exact nofun
      · rw [ht, hlength, scan]
      · rw [ht, hlength, lexemes]
  | cons b r ih =>
      have hlt : pos < input.length := by
        have hlength := congrArg List.length ht
        rw [List.length_drop, List.length_cons] at hlength
        omega
      by_cases hspace : Byte.isSpace b = true
      · exact (ih hlt (drop_succ_of_drop ht)).blank ht hspace
      cases hread : readToken b r with
      | ok found =>
          obtain ⟨token, n⟩ := found
          have hfits := fitsIn_readToken b r token n hread
          have hslice : Slice input pos (pos + 1 + n) (b :: r.take n) := .of_cons ht hfits
          refine .token [] (b :: r.take n) ⟨token, pos⟩ (pos + 1 + n) (.empty input pos) nofun hslice ?_ ?_ ?_
          · rw [ht]
            exact longest_of_readToken hread
          · rw [ht, scan, if_neg hspace, hread]
          · have hrest : input.drop (pos + 1 + n) = r.drop n := by rw [← List.drop_drop, drop_succ_of_drop ht]
            rw [ht, hrest, lexemes, if_neg hspace, hread]
      | error e =>
          obtain ⟨cause, n⟩ := e
          refine .failed [] ⟨cause, pos⟩ (pos + 1 + n) (.empty input pos) nofun ?_ ?_ ?_
          · rw [ht]
            exact stuck_of_readToken hread (by simpa using hspace)
          · rw [ht, scan, if_neg hspace, hread]
          · rw [ht, lexemes, if_neg hspace, hread]

/-! ## Tiles -/

/-- From `pos` on the text is blanks and sources in turns, each source the longest where it starts, and a token stands
at the start of its source. The last blanks reach the end of the text or a place where no source starts. -/
inductive Tiles (input : Text) : Nat → List Lexeme → Ending → Prop where
  | done {pos : Nat} : Blank (input.drop pos) → Tiles input pos [] (.done input.length)
  | failed {pos : Nat} {gap : Text} {e : SyntaxError} : Slice input pos e.pos gap → Blank gap →
      Stuck (input.drop e.pos) → Tiles input pos [] (.failed e)
  | token {pos stop : Nat} {gap s : Text} {l : Lexeme} {ls : List Lexeme} {ending : Ending} :
      Slice input pos l.pos gap → Blank gap → Slice input l.pos stop s → l.token.Longest s (input.drop l.pos) →
      Tiles input stop ls ending → Tiles input pos (l :: ls) ending

namespace Tiles

variable {input : Text} {pos : Nat} {ls : List Lexeme} {ending : Ending}

theorem le (h : Tiles input pos ls ending) (hpos : pos ≤ input.length) :
    ∀ p ∈ ls.map Lexeme.pos ++ [ending.pos], pos ≤ p := by
  induction h with
  | done => exact List.forall_mem_singleton.mpr hpos
  | failed hgap => exact List.forall_mem_singleton.mpr hgap.le
  | token hgap _ hsource _ _ ih =>
      have hnext := ih (hsource.stop_le (hgap.stop_le hpos))
      refine List.forall_mem_cons.mpr ⟨hgap.le, fun p hp => ?_⟩
      exact (hgap.le.trans hsource.le).trans (hnext p hp)

/-- Each token starts after the one before it, and the last one before the end of the tokens. -/
theorem increasing (h : Tiles input pos ls ending) (hpos : pos ≤ input.length) :
    (ls.map Lexeme.pos ++ [ending.pos]).Pairwise (· < ·) := by
  induction h with
  | done => exact List.pairwise_singleton _ _
  | failed => exact List.pairwise_singleton _ _
  | token hgap _ hsource hlongest htiles ih =>
      have hstop := hsource.stop_le (hgap.stop_le hpos)
      refine List.pairwise_cons.mpr ⟨fun p hp => ?_, ih hstop⟩
      exact (hsource.lt hlongest.1.ne_nil).trans_le (htiles.le hstop p hp)

/-- Where the tokens reach the end, it is the end of the text. -/
theorem stop_eq {stop : Nat} (h : Tiles input pos ls ending) (hending : ending = .done stop) : stop = input.length := by
  induction h with
  | done => exact (Ending.done.inj hending).symm
  | failed => cases hending
  | token _ _ _ _ _ ih => exact ih hending

end Tiles

/-! ## Calls of `next` -/

namespace Lexer

/-- The tokens that calls of `next` return up to the end of the text or the first error. -/
inductive Reads : Lexer → List Lexeme → Ending → Prop where
  | done {l l' : Lexer} {pos : Nat} : l.next = (.ok ⟨.endOfText, pos⟩, l') → Reads l [] (.done pos)
  | failed {l l' : Lexer} {e : SyntaxError} : l.next = (.error e, l') → Reads l [] (.failed e)
  | token {l l' : Lexer} {lexeme : Lexeme} {ls : List Lexeme} {ending : Ending} : l.next = (.ok lexeme, l') →
      lexeme.token ≠ .endOfText → Reads l' ls ending → Reads l (lexeme :: ls) ending

theorem next_of_scan {l : Lexer} (hl : l.held = none) {result : Except SyntaxError Lexeme} {stop : Nat}
    (h : scan l.pos (l.input.drop l.pos) = (result, stop)) : l.next = (result, { l with pos := stop }) := by
  unfold next
  rw [hl]
  dsimp only
  rw [h]

theorem tiles_of_reads {l : Lexer} {ls : List Lexeme} {ending : Ending} (h : l.Reads ls ending)
    (hl : l.held = none) (hpos : l.pos ≤ l.input.length) : Tiles l.input l.pos ls ending := by
  -- A call of `next` has one result: of the three ways a reading can go, only the one that agrees with it remains.
  induction h with
  | done hnext =>
      cases firstReading hpos with
      | done hgap hscan =>
          cases hnext.symm.trans (next_of_scan hl hscan)
          exact .done hgap
      | failed gap e stop _ _ _ hscan => cases hnext.symm.trans (next_of_scan hl hscan)
      | token gap s lexeme stop _ _ _ hlongest hscan =>
          cases hnext.symm.trans (next_of_scan hl hscan)
          exact absurd rfl hlongest.1.ne_endOfText
  | failed hnext =>
      cases firstReading hpos with
      | done hgap hscan => cases hnext.symm.trans (next_of_scan hl hscan)
      | failed gap e stop hslice hgap hstuck hscan =>
          cases hnext.symm.trans (next_of_scan hl hscan)
          exact .failed hslice hgap hstuck
      | token gap s lexeme stop _ _ _ hlongest hscan => cases hnext.symm.trans (next_of_scan hl hscan)
  | token hnext hne _ ih =>
      cases firstReading hpos with
      | done hgap hscan =>
          cases hnext.symm.trans (next_of_scan hl hscan)
          exact absurd rfl hne
      | failed gap e stop _ _ _ hscan => cases hnext.symm.trans (next_of_scan hl hscan)
      | token gap s lexeme stop hslice hgap hsource hlongest hscan =>
          cases hnext.symm.trans (next_of_scan hl hscan)
          exact .token hslice hgap hsource hlongest (ih hl (hsource.stop_le (hslice.stop_le hpos)))

/-- Calls of `next` return the tokens of the rest of the text. -/
theorem reads_lexemes {l : Lexer} (hl : l.held = none) (hpos : l.pos ≤ l.input.length) :
    l.Reads (lexemes l.pos (l.input.drop l.pos)).1 (lexemes l.pos (l.input.drop l.pos)).2 := by
  cases firstReading hpos with
  | done _ hscan hlexemes =>
      rw [hlexemes]
      exact .done (next_of_scan hl hscan)
  | failed gap e stop _ _ _ hscan hlexemes =>
      rw [hlexemes]
      exact .failed (next_of_scan hl hscan)
  | token gap s lexeme stop hslice _ hsource hlongest hscan hlexemes =>
      rw [hlexemes]
      have hstop : stop ≤ l.input.length := hsource.stop_le (hslice.stop_le hpos)
      have hlt : l.pos < stop := hslice.le.trans_lt (hsource.lt hlongest.1.ne_nil)
      have hmore := reads_lexemes (l := { l with pos := stop }) hl hstop
      exact .token (next_of_scan hl hscan) hlongest.1.ne_endOfText hmore
-- A token takes in a byte at least, so the cursor comes closer to the end.
termination_by l.input.length - l.pos
decreasing_by omega

/-- **Of every text, calls of `next` come to its end or to an error. What they return tiles the text: before, between
and after the sources of the tokens lie blanks only, up to the end or to the error, each token stands where its source
starts, the positions increase strictly, and the end is where the text ends.** -/
theorem reads_tiling (input : Text) :
    (start input).Reads (lexemes 0 input).1 (lexemes 0 input).2 ∧
    ∀ ls ending, (start input).Reads ls ending →
      Tiles input 0 ls ending ∧ (ls.map Lexeme.pos ++ [ending.pos]).Pairwise (· < ·) ∧
      ∀ stop, ending = .done stop → stop = input.length := by
  have hstart : (start input).pos ≤ (start input).input.length := Nat.zero_le _
  refine ⟨reads_lexemes (l := start input) rfl hstart, fun ls ending hreads => ?_⟩
  have htiles := tiles_of_reads hreads rfl hstart
  exact ⟨htiles, htiles.increasing hstart, fun stop hending => htiles.stop_eq hending⟩

example : scan 0 (" 'it\\'s'/" : Text) = (.ok ⟨.string "it's", 1⟩, 8) := by decide

end Lexer

end TreeQuery
