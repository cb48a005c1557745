import TreeQuery.Path.Printer
import TreeQuery.Proofs.Path.Grammar
import TreeQuery.Proofs.Text.Numeral
import Mathlib.Tactic.SplitIfs

/-!
# Cutting written tokens

How the written form of a token is cut off the front of a text again. What can go wrong is that the token takes
in bytes of what follows, so what follows has to start with a byte that ends it.

* `IsWord`: the texts that are cut as one word; every word token of a text is one (`isWord_of_tokens?`), and
  lower case keeps them words (`IsWord.lowered`);
* `Boundary`: a text that starts with no byte of a word;
* `Found`, `found_readToken`: all that can be found at the front of a text;
* `BetweenQuotes`: the texts between two quotes, with their values;
* `Lexes t ts`: the text is cut into the tokens `ts`, with one lemma for each way to put a token in front.
-/

namespace TreeQuery

set_option autoImplicit false

/-! ## Words -/

/-- No word goes on with the byte. -/
def endsWord (b : UInt8) : Bool := !Byte.isIdent b && !Wildcard.isWild b && b != '.'

/-- The text is empty or starts with a byte that ends words. -/
def Boundary (t : Text) : Prop := t.head?.all endsWord = true

theorem Boundary.of_cons {b : UInt8} {t : Text} (h : Boundary (b :: t)) :
    Byte.isIdent b = false ∧ Wildcard.isWild b = false ∧ b ≠ '.' := by
  simpa [Boundary, endsWord, and_assoc] using h

theorem readIdent_of_boundary {t : Text} (h : Boundary t) : readIdent t = [] := by
  cases t with
  | nil => rfl
  | cons b t =>
      obtain ⟨hident, hwild, hdot⟩ := h.of_cons
      simp [readIdent, hident, hwild, hdot]

theorem readIdent_isPrefix (r : Text) : readIdent r <+: r := by
  fun_induction readIdent r with
  | case1 => exact List.nil_prefix
  | case2 b r _ ih => exact List.cons_prefix_cons.mpr ⟨rfl, ih⟩
  | case3 b r _ _ ih => exact List.cons_prefix_cons.mpr ⟨rfl, ih⟩
  | case4 => exact List.nil_prefix

theorem isIdent_of_isAlnum {b : UInt8} (h : Byte.isAlnum b = true) : Byte.isIdent b = true := by
  simp [Byte.isIdent, h]

/-- A dot stays inside the word: the letter or digit after it is kept. -/
theorem readIdent_readIdent_append {t : Text} (ht : Boundary t) (r : Text) :
    readIdent (readIdent r ++ t) = readIdent r := by
  fun_induction readIdent r with
  | case1 => exact readIdent_of_boundary ht
  | case2 b r h ih => rw [List.cons_append, readIdent, if_pos h, ih]
  | case3 b r h hdot ih =>
      have hhead : (readIdent r ++ t).head?.any Byte.isAlnum := by
        cases r with
        | nil => exact absurd hdot.2 (by decide)
        | cons c r =>
            have hc : Byte.isAlnum c = true := hdot.2
            simp [readIdent, isIdent_of_isAlnum hc, hc]
      rw [List.cons_append, readIdent, if_neg h, if_pos ⟨hdot.1, hhead⟩, ih]
  | case4 b r h hdot => exact readIdent_of_boundary ht

/-- The texts that are cut as one word. -/
def IsWord (w : Text) : Prop :=
  ∃ b r, w = b :: r ∧ startsIdent b = true ∧ readIdent r = r ∧ w ≠ ("*" : Text)

/-- Tokens that are always written the same way. -/
def Token.isFixed : Token → Bool
  | ident _ | string _ | number _ | endOfText => false
  | _ => true

/-- What is found at the front of a text: `b` is its first byte and `r` are the others. -/
inductive Found (b : UInt8) (r : Text) : Except (Cause × Nat) (Token × Nat) → Prop where
  | single {token : Token} : token.isFixed → token.symbol = [b] → Found b r (.ok (token, 0))
  | pair {token : Token} {c : UInt8} : r.head? = some c → token.isFixed → token.symbol = [b, c] →
      Found b r (.ok (token, 1))
  | string {v : Text} {n : Nat} : b = 0x27 ∨ b = 0x22 → readString? b r = some (v, n) → Found b r (.ok (.string v, n))
  | number : Byte.isDigit b →
      Found b r (.ok (.number (b :: r.takeWhile Byte.isDigit), (r.takeWhile Byte.isDigit).length))
  | star : b :: readIdent r = ("*" : Text) → Found b r (.ok (.star, (readIdent r).length))
  | word : startsIdent b → b :: readIdent r ≠ ("*" : Text) →
      Found b r (.ok (.ident (b :: readIdent r), (readIdent r).length))
  | error (e : Cause × Nat) : Found b r (.error e)

theorem found_readToken (b : UInt8) (r : Text) : Found b r (readToken b r) := by
  -- One branch after the other, in the order of `readToken`: pairs of symbols, single ones, strings, numbers, words.
  unfold readToken
  iterate 2
    refine iteInduction (fun hb => ?_) fun _ => ?_
    · subst hb
      rw [apply_ite Except.ok]
      exact iteInduction (.pair · rfl rfl) fun _ => .single rfl rfl
  iterate 3
    refine iteInduction (fun hb => ?_) fun _ => ?_
    · subst hb
      exact iteInduction (.pair · rfl rfl) fun _ => .error _
  iterate 7
    refine iteInduction (fun hb => ?_) fun _ => ?_
    · subst hb
      exact .single rfl rfl
  refine iteInduction (fun hquote => ?_) fun _ => ?_
  · split
    · rename_i hread
      exact .string hquote hread
    · exact .error _
  refine iteInduction .number fun _ => ?_
  refine iteInduction (fun hstarts => ?_) fun _ => .error _
  dsimp only
  split
  · rename_i hstar
    exact .star hstar
  · rename_i hword
    exact .word hstarts hword

theorem isWord_of_readToken {b : UInt8} {r w : Text} {n : Nat} (h : readToken b r = .ok (.ident w, n)) :
    IsWord w := by
  have hfound := found_readToken b r
  rw [h] at hfound
  cases hfound with
  | single hfixed => cases hfixed
  | pair _ hfixed => cases hfixed
  | word hstarts hword =>
      refine ⟨b, readIdent r, rfl, hstarts, ?_, hword⟩
      simpa using readIdent_readIdent_append (t := []) rfl r

theorem isWord_of_lexemes {pos : Nat} {t w : Text} (h : .ident w ∈ (lexemes pos t).1.map Lexeme.token) :
    IsWord w := by
  fun_induction lexemes pos t with
  | case1 => exact absurd h (by simp)
  | case2 pos b r hspace ih => exact ih h
  | case3 => exact absurd h (by simp)
  | case4 pos b r hspace token n hread ls ending hmore ih =>
      simp only [List.map_cons, List.mem_cons] at h
      rcases h with h | h
      · exact isWord_of_readToken (h ▸ hread)
      · exact ih (by rwa [hmore])

theorem isWord_of_tokens? {input w : Text} {ts : List Token} (h : Grammar.tokens? input = some ts)
    (hw : .ident w ∈ ts) : IsWord w := by
  unfold Grammar.tokens? at h
  split at h
  · rename_i ls stop hls
    cases h
    exact isWord_of_lexemes (by rwa [hls])
  · cases h

/-! ## Words in lower case -/

theorem lower_eq_iff {b c : UInt8} (hc : Byte.isAlpha c = false) : Byte.lower b = c ↔ b = c := by
  simp only [Byte.lower, Byte.isAlpha, Byte.isUpper, Byte.isLower, Bool.or_eq_false_iff, Bool.and_eq_false_iff,
    decide_eq_false_iff_not] at hc ⊢
  grind

theorem isAlnum_lower (b : UInt8) : Byte.isAlnum (Byte.lower b) = Byte.isAlnum b := by
  simp only [Byte.lower, Byte.isAlnum, Byte.isAlpha, Byte.isUpper, Byte.isLower, Byte.isDigit]
  grind

theorem isAlpha_lower (b : UInt8) : Byte.isAlpha (Byte.lower b) = Byte.isAlpha b := by
  simp only [Byte.lower, Byte.isAlpha, Byte.isUpper, Byte.isLower]
  grind

theorem beq_lower {c : UInt8} (hc : Byte.isAlpha c = false) (b : UInt8) : (Byte.lower b == c) = (b == c) := by
  rw [Bool.eq_iff_iff, beq_iff_eq, beq_iff_eq, lower_eq_iff hc]

theorem isIdent_lower (b : UInt8) : Byte.isIdent (Byte.lower b) = Byte.isIdent b := by
  rw [Byte.isIdent, isAlnum_lower, beq_lower rfl, beq_lower rfl, Byte.isIdent]

theorem isWild_lower (b : UInt8) : Wildcard.isWild (Byte.lower b) = Wildcard.isWild b := by
  rw [Wildcard.isWild, beq_lower rfl, beq_lower rfl, Wildcard.isWild]

theorem startsIdent_lower (b : UInt8) : startsIdent (Byte.lower b) = startsIdent b := by
  rw [startsIdent, isAlpha_lower, beq_lower rfl, isWild_lower, startsIdent]

theorem readIdent_lowered (r : Text) : readIdent r.lowered = (readIdent r).lowered := by
  induction r with
  | nil => rfl
  | cons b r ih =>
      have hhead : (Text.lowered r).head?.any Byte.isAlnum = r.head?.any Byte.isAlnum := by
        cases r with
        | nil => rfl
        | cons c r => exact isAlnum_lower c
      have hdot : Byte.lower b = '.' ↔ b = '.' := lower_eq_iff rfl
      change readIdent (Byte.lower b :: Text.lowered r) = _
      simp only [readIdent, isIdent_lower, isWild_lower, hdot, hhead, ih]
      split_ifs <;> rfl

theorem IsWord.lowered {w : Text} (h : IsWord w) : IsWord w.lowered := by
  obtain ⟨b, r, rfl, hb, hr, hstar⟩ := h
  refine ⟨Byte.lower b, Text.lowered r, rfl, by rwa [startsIdent_lower], by rw [readIdent_lowered, hr], ?_⟩
  intro h
  obtain ⟨hlower, hnil⟩ := List.cons.inj h
  rw [lower_eq_iff rfl] at hlower
  obtain rfl := List.map_eq_nil_iff.mp hnil
  exact hstar (by rw [hlower]; rfl)

/-! ## Strings -/

/-- The text between two quotes and its value: a backslash is dropped and the byte after it kept, and the quote itself
stands only after such a backslash. -/
inductive BetweenQuotes (quote : UInt8) : Text → Text → Prop where
  | nil : BetweenQuotes quote [] []
  | plain {b : UInt8} {body v : Text} : b ≠ 0x5c → b ≠ quote → BetweenQuotes quote body v →
      BetweenQuotes quote (b :: body) (b :: v)
  | escaped {b : UInt8} {body v : Text} : BetweenQuotes quote body v →
      BetweenQuotes quote (0x5c :: b :: body) (b :: v)

theorem betweenQuotes_of_readString? {quote : UInt8} {r v : Text} {n : Nat} (h : readString? quote r = some (v, n)) :
    ∃ body rest, r = body ++ quote :: rest ∧ n = body.length + 1 ∧ BetweenQuotes quote body v := by
  fun_induction readString? quote r generalizing v n with
  | case1 => cases h
  | case2 => cases h
  | case3 b r ih =>
      obtain ⟨⟨w, k⟩, hw, hn⟩ := Option.map_eq_some_iff.mp h
      cases hn
      obtain ⟨body, rest, rfl, rfl, hbody⟩ := ih hw
      exact ⟨0x5c :: b :: body, rest, rfl, rfl, hbody.escaped⟩
  | case4 r =>
      cases h
      exact ⟨[], r, rfl, rfl, .nil⟩
  | case5 b r hlast hmore hb ih =>
      obtain ⟨⟨w, k⟩, hw, hn⟩ := Option.map_eq_some_iff.mp h
      cases hn
      obtain ⟨body, rest, rfl, rfl, hbody⟩ := ih hw
      -- A backslash here would have taken in the byte after it, and there is one.
      have hescape : b ≠ 0x5c := by
        intro hescape
        cases body with
        | nil => exact hmore quote rest hescape rfl
        | cons c body => exact hmore c (body ++ quote :: rest) hescape rfl
      exact ⟨b :: body, rest, rfl, rfl, hbody.plain hescape hb⟩

theorem BetweenQuotes.readString? {quote : UInt8} {body v : Text} (h : BetweenQuotes quote body v)
    (hquote : quote ≠ 0x5c) (rest : Text) :
    TreeQuery.readString? quote (body ++ quote :: rest) = some (v, body.length + 1) := by
  induction h with
  | nil => simp [TreeQuery.readString?, hquote]
  | plain hescape hb _ ih => simp [TreeQuery.readString?, hescape, hb, ih]
  | escaped _ ih => simp [TreeQuery.readString?, ih]

/-! ## Single tokens -/

/-- A byte that starts a number or a word is none of the symbols and quotes. -/
theorem readToken_of_starts {b : UInt8} (hb : Byte.isDigit b = true ∨ startsIdent b = true) (r : Text) :
    readToken b r =
      if Byte.isDigit b then .ok (.number (b :: r.takeWhile Byte.isDigit), (r.takeWhile Byte.isDigit).length)
      else
        .ok (if b :: readIdent r = ("*" : Text) then .star else .ident (b :: readIdent r), (readIdent r).length) := by
  have hne : ∀ c, Byte.isDigit c = false → startsIdent c = false → b ≠ c := by
    rintro c hdigit hident rfl
    simp [hdigit, hident] at hb
  have hquote : ¬ (b = 0x27 ∨ b = 0x22) := not_or.mpr ⟨hne _ rfl rfl, hne _ rfl rfl⟩
  rw [readToken, if_neg (hne _ rfl rfl), if_neg (hne _ rfl rfl), if_neg (hne _ rfl rfl), if_neg (hne _ rfl rfl),
    if_neg (hne _ rfl rfl), if_neg (hne _ rfl rfl), if_neg (hne _ rfl rfl), if_neg (hne _ rfl rfl),
    if_neg (hne _ rfl rfl), if_neg (hne _ rfl rfl), if_neg (hne _ rfl rfl), if_neg (hne _ rfl rfl), if_neg hquote]
  by_cases hdigit : Byte.isDigit b = true
  · rw [if_pos hdigit, if_pos hdigit]
  · rw [if_neg hdigit, if_neg hdigit, if_pos (hb.resolve_left hdigit)]
    rfl

theorem readToken_of_startsIdent {b : UInt8} (hb : startsIdent b = true) (r : Text) :
    readToken b r = .ok (if b :: readIdent r = ("*" : Text) then .star else .ident (b :: readIdent r),
      (readIdent r).length) := by
  have hdigit : ¬ Byte.isDigit b = true := by
    simp only [startsIdent, Wildcard.isWild, Byte.isAlpha, Byte.isUpper, Byte.isLower, Byte.isDigit] at hb ⊢
    grind
  rw [readToken_of_starts (.inr hb), if_neg hdigit]

theorem readToken_of_isDigit {b : UInt8} (hb : Byte.isDigit b = true) (r : Text) :
    readToken b r = .ok (.number (b :: r.takeWhile Byte.isDigit), (r.takeWhile Byte.isDigit).length) := by
  rw [readToken_of_starts (.inl hb), if_pos hb]

theorem readToken_of_quote {quote : UInt8} {r v : Text} {n : Nat} (hquote : quote = 0x27 ∨ quote = 0x22)
    (h : readString? quote r = some (v, n)) : readToken quote r = .ok (.string v, n) := by
  unfold readToken
  rcases hquote with rfl | rfl
  · simp +decide only [h, if_true, if_false]
  · simp +decide only [h, if_true, if_false]

/-- A value with a backslash before each quote and backslash. -/
def escaped (v : Text) : Text :=
  v.flatMap fun (b : UInt8) => if b = 0x27 ∨ b = 0x5c then [0x5c, b] else [b]

theorem betweenQuotes_escaped (v : Text) : BetweenQuotes 0x27 (escaped v) v := by
  induction v with
  | nil => exact .nil
  | cons b v ih =>
      by_cases hb : b = 0x27 ∨ b = 0x5c
      · have hcons : escaped (b :: v) = 0x5c :: b :: escaped v := by simp [escaped, hb]
        exact hcons ▸ ih.escaped
      · have hcons : escaped (b :: v) = b :: escaped v := by simp [escaped, hb]
        rw [not_or] at hb
        exact hcons ▸ ih.plain hb.2 hb.1

theorem readToken_quote (v t : Text) :
    readToken 0x27 (escaped v ++ 0x27 :: t) = .ok (.string v, (escaped v).length + 1) :=
  readToken_of_quote (.inl rfl) ((betweenQuotes_escaped v).readString? (by decide) t)

theorem takeWhile_isDigit {r t : Text} (hr : ∀ b ∈ r, Byte.isDigit b) (ht : Boundary t) :
    (r ++ t).takeWhile Byte.isDigit = r := by
  rw [List.takeWhile_append_of_pos hr]
  cases t with
  | nil => simp
  | cons b t =>
      have hb : Byte.isDigit b = false := by
        have hident := ht.of_cons.1
        simp only [Byte.isIdent, Byte.isAlnum] at hident
        grind
      simp [hb]

/-! ## Tokens in front of a text -/

/-- The text is cut into the tokens to its end. -/
def Lexes (t : Text) (ts : List Token) : Prop :=
  ∀ pos, ∃ ls stop, lexemes pos t = (ls, .done stop) ∧ ls.map Lexeme.token = ts

theorem Lexes.tokens? {t : Text} {ts : List Token} (h : Lexes t ts) : Grammar.tokens? t = some ts := by
  obtain ⟨ls, stop, hls, rfl⟩ := h 0
  rw [Grammar.tokens?, hls]

theorem lexes_nil : Lexes [] [] := fun pos => ⟨[], pos, by rw [lexemes], rfl⟩

theorem Lexes.blank {t : Text} {ts : List Token} (h : Lexes t ts) : Lexes (0x20 :: t) ts := by
  intro pos
  obtain ⟨ls, stop, hls, hts⟩ := h (pos + 1)
  exact ⟨ls, stop, by rw [lexemes, if_pos (by decide), hls], hts⟩

theorem Lexes.token {b : UInt8} {r t : Text} {tok : Token} {ts : List Token} (h : Lexes t ts)
    (hspace : Byte.isSpace b = false) (hread : readToken b (r ++ t) = .ok (tok, r.length)) :
    Lexes (b :: r ++ t) (tok :: ts) := by
  intro pos
  obtain ⟨ls, stop, hls, hts⟩ := h (pos + 1 + r.length)
  refine ⟨⟨tok, pos⟩ :: ls, stop, ?_, by rw [List.map_cons, hts]⟩
  rw [List.cons_append, lexemes, if_neg (by simp [hspace]), hread]
  dsimp only
  rw [List.drop_left, hls]

theorem Lexes.word {w t : Text} {ts : List Token} (h : Lexes t ts) (hw : IsWord w) (ht : Boundary t) :
    Lexes (w ++ t) (.ident w :: ts) := by
  obtain ⟨b, r, rfl, hb, hr, hstar⟩ := hw
  have hread : readIdent (r ++ t) = r := by
    have := readIdent_readIdent_append ht r
    rwa [hr] at this
  refine h.token ?_ ?_
  · simp only [startsIdent, Wildcard.isWild, Byte.isAlpha, Byte.isUpper, Byte.isLower, Byte.isSpace] at hb ⊢
    grind
  · rw [readToken_of_startsIdent hb, hread, if_neg hstar]

theorem Lexes.star {t : Text} {ts : List Token} (h : Lexes t ts) (ht : Boundary t) :
    Lexes (0x2a :: t) (.star :: ts) := by
  refine h.token (r := []) rfl ?_
  rw [readToken_of_startsIdent rfl, List.nil_append, readIdent_of_boundary ht]
  rfl

theorem Lexes.number {n : Nat} {t : Text} {ts : List Token} (h : Lexes t ts) (ht : Boundary t) :
    Lexes (Text.ofNat n ++ t) (.number (Text.ofNat n) :: ts) := by
  obtain ⟨b, r, hbr⟩ := List.exists_cons_of_ne_nil (Text.ofNat_ne_nil n)
  have hdigit : ∀ c ∈ b :: r, Byte.isDigit c := fun c hc => Text.isDigit_of_mem_ofNat (hbr ▸ hc)
  rw [hbr]
  refine h.token ?_ ?_
  · have hb := hdigit b (by simp)
    simp only [Byte.isDigit, Byte.isSpace] at hb ⊢
    grind
  · rw [readToken_of_isDigit (hdigit b (by simp)), takeWhile_isDigit (fun c hc => hdigit c (by simp [hc])) ht]

theorem Lexes.quoted {t : Text} {ts : List Token} (h : Lexes t ts) (v : Text) :
    Lexes (TreeQuery.quoted v ++ t) (.string v :: ts) := by
  have hread := readToken_quote v t
  have hlexes := h.token (b := 0x27) (r := escaped v ++ [0x27]) rfl (by simpa using hread)
  simpa [TreeQuery.quoted, escaped] using hlexes

end TreeQuery
