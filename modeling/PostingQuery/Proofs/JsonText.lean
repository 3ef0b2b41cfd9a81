import Mathlib
import PostingQuery.Json.Package
import PostingQuery.Json.Record

/-!
Flat objects as JSON text. The grammar of such texts is given apart from the scan that reads them: blanks
between the tokens, keys with or without escapes, natural numbers of 64 bits and truth values. A text of
the grammar is read as the object that it spells.
-/

namespace PostingQuery.Json

def Blanks (text : List Char) : Prop := text.all isBlank = true

theorem blanks_cons {c : Char} {rest : List Char} : Blanks (c :: rest) ↔ isBlank c = true ∧ Blanks rest := by
  rw [Blanks, List.all_cons, Bool.and_eq_true, Blanks]

def isPlain (c : Char) : Bool := c != '"' && c != '\\' && !decide (c < ' ')

inductive PieceText : Piece → List Char → Prop
  | plain (c : Char) (plain : isPlain c = true) : PieceText (.char c) [c]
  | short (mark c : Char) (stands : shortEscape? mark = some c) : PieceText (.char c) ['\\', mark]
  | unit (a b c d : Char) {w x y z : Nat} (digits : hexDigit? a = some w ∧ hexDigit? b = some x ∧
      hexDigit? c = some y ∧ hexDigit? d = some z) :
    PieceText (.unit (16 * (16 * (16 * w + x) + y) + z)) ['\\', 'u', a, b, c, d]

inductive KeyText : List Piece → List Char → Prop
  | nil : KeyText [] []
  | cons {piece : Piece} {pieces : List Piece} {spelled rest : List Char} (first : PieceText piece spelled)
    (others : KeyText pieces rest) : KeyText (piece :: pieces) (spelled ++ rest)

theorem keyText_plain {chars : List Char} (plain : chars.all isPlain = true) :
    KeyText (chars.map .char) chars := by
  induction chars with
  | nil => exact .nil
  | cons c rest ih =>
    rw [List.all_cons, Bool.and_eq_true] at plain
    exact .cons (.plain c plain.1) (ih plain.2)

theorem string?_plain (text : String) : string? (text.toList.map .char) = some text := by
  have characters : ∀ chars : List Char, characters? (chars.map .char) = some chars := by
    intro chars
    induction chars with
    | nil => rfl
    | cons c rest ih => simp [characters?, ih]
  rw [string?, characters, Option.map_some, String.ofList_toList]

namespace Scalar

def numeral (n : Nat) : NumberText := { whole := if n = 0 then [0] else (Nat.digits 10 n).reverse }

def token : Scalar → Token
  | natural value => .number (numeral value.toNat)
  | bool value => .bool value

def value : Scalar → Value
  | natural value => .number (numeral value.toNat)
  | bool value => .bool value

end Scalar

abbrev Members := List (List Piece × Scalar)

inductive MemberText (key : List Piece) (scalar : Scalar) : List Char → Prop
  | mk {front spelled beforeColon afterColon back : List Char} (keyText : KeyText key spelled)
    (blanks : Blanks front ∧ Blanks beforeColon ∧ Blanks afterColon ∧ Blanks back) :
    MemberText key scalar
      (front ++ ('"' :: spelled ++ '"' :: (beforeColon ++ ':' :: (afterColon ++ (scalar.text.toList ++ back)))))

inductive MembersText : Members → List Char → Prop
  | last {key : List Piece} {scalar : Scalar} {text : List Char} (member : MemberText key scalar text) :
    MembersText [(key, scalar)] text
  | more {key : List Piece} {scalar : Scalar} {members : Members} {text rest : List Char}
    (member : MemberText key scalar text) (others : MembersText members rest) :
    MembersText ((key, scalar) :: members) (text ++ ',' :: rest)

inductive ObjectText : Members → List Char → Prop
  | empty {front inside back : List Char} (blanks : Blanks front ∧ Blanks inside ∧ Blanks back) :
    ObjectText [] (front ++ '\x7b' :: (inside ++ '\x7d' :: back))
  | members {members : Members} {front text back : List Char} (blanks : Blanks front ∧ Blanks back)
    (inside : MembersText members text) :
    ObjectText members (front ++ '\x7b' :: (text ++ '\x7d' :: back))

section Scanning

def Leads {σ α : Type} (step? : σ → α → Option σ) (input : List α) (before after : σ) : Prop :=
  input.foldlM step? before = some after

namespace Leads

variable {σ α : Type} {step? : σ → α → Option σ} {before middle after : σ}

theorem nil (state : σ) : Leads step? [] state state := rfl

theorem cons {item : α} {rest : List α} (one : step? before item = some middle)
    (two : Leads step? rest middle after) : Leads step? (item :: rest) before after := by
  unfold Leads at *
  rw [List.foldlM_cons, one]
  exact two

theorem append {first second : List α} (one : Leads step? first before middle)
    (two : Leads step? second middle after) : Leads step? (first ++ second) before after := by
  unfold Leads at *
  rw [List.foldlM_append, one]
  exact two

end Leads

abbrev Scans : List Char → Scan → Scan → Prop := Leads Scan.step?

/-- What is read of the last token makes it complete, and the characters that may follow end it. -/
structure Settles (scan : Scan) (tokens : List Token) : Prop where
  settled : scan.settle? = some ⟨.between, tokens⟩
  ends : ∀ c, isBlank c = true ∨ c = ',' ∨ c = '\x7d' → scan.step? c = Scan.begin? ⟨.between, tokens⟩ c

theorem settles_between (tokens : List Token) : Settles ⟨.between, tokens⟩ tokens := ⟨rfl, fun _ _ => rfl⟩

theorem isBlank_iff {c : Char} : isBlank c = true ↔ c = ' ' ∨ c = '\n' ∨ c = '\t' ∨ c = '\r' := by
  simp [isBlank, or_assoc]

theorem begin?_blank {c : Char} (blank : isBlank c = true) (tokens : List Token) :
    Scan.begin? ⟨.between, tokens⟩ c = some ⟨.between, tokens⟩ := by
  rcases isBlank_iff.mp blank with rfl | rfl | rfl | rfl
  all_goals rfl

theorem scans_blanks {blanks : List Char} (blank : Blanks blanks) (tokens : List Token) :
    Scans blanks ⟨.between, tokens⟩ ⟨.between, tokens⟩ := by
  induction blanks with
  | nil => exact .nil _
  | cons c rest ih =>
    obtain ⟨first, others⟩ := blanks_cons.mp blank
    exact .cons (begin?_blank first tokens) (ih others)

theorem Settles.blanks {scan : Scan} {tokens : List Token} (settles : Settles scan tokens)
    {blanks : List Char} (blank : Blanks blanks) :
    ∃ after, Scans blanks scan after ∧ Settles after tokens := by
  cases blanks with
  | nil => exact ⟨scan, .nil scan, settles⟩
  | cons c rest =>
    obtain ⟨first, others⟩ := blanks_cons.mp blank
    have here := (settles.ends c (.inl first)).trans (begin?_blank first tokens)
    exact ⟨_, .cons here (scans_blanks others tokens), settles_between tokens⟩

theorem Settles.comma {scan : Scan} {tokens : List Token} (settles : Settles scan tokens) :
    scan.step? ',' = some ⟨.between, .comma :: tokens⟩ := settles.ends ',' (.inr (.inl rfl))

theorem Settles.closeObject {scan : Scan} {tokens : List Token} (settles : Settles scan tokens) :
    scan.step? '\x7d' = some ⟨.between, .closeObject :: tokens⟩ := settles.ends '\x7d' (.inr (.inr rfl))

theorem scans_piece {piece : Piece} {text : List Char} (spelled : PieceText piece text)
    (pieces : List Piece) (tokens : List Token) :
    Scans text ⟨.text pieces, tokens⟩ ⟨.text (piece :: pieces), tokens⟩ := by
  cases spelled with
  | plain c plain =>
    have apart : c ≠ '"' ∧ c ≠ '\\' ∧ ¬ c < ' ' := by simpa [isPlain, and_assoc] using plain
    obtain ⟨quote, backslash, printable⟩ := apart
    refine .cons ?_ rfl
    simp only [Scan.step?, if_neg quote, if_neg backslash, if_neg printable]
  | short mark c stands =>
    have notUnit : mark ≠ 'u' := by
      rintro rfl
      cases stands
    refine .cons rfl (.cons ?_ rfl)
    simp only [Scan.step?, if_neg notUnit, stands, Option.map_some]
  | unit a b c d digits =>
    obtain ⟨first, second, third, fourth⟩ := digits
    refine .cons rfl (.cons rfl ?_)
    simp [Leads, Scan.step?, first, second, third, fourth]

theorem scans_pieces {key : List Piece} {text : List Char} (spelled : KeyText key text)
    (pieces : List Piece) (tokens : List Token) :
    Scans text ⟨.text pieces, tokens⟩ ⟨.text (key.reverse ++ pieces), tokens⟩ := by
  induction spelled generalizing pieces with
  | nil => rfl
  | cons first _ ih =>
    rw [List.reverse_cons, List.append_assoc]
    exact (scans_piece first pieces tokens).append (ih _)

theorem digit?_digitChar {d : Nat} (small : d < 10) : digit? (Nat.digitChar d) = some d := by
  interval_cases d <;> rfl

theorem scans_digits {n : Nat} (positive : 0 < n) (tokens : List Token) :
    Scans (Nat.toDigits 10 n) ⟨.between, tokens⟩
      ⟨.number .whole { whole := Nat.digits 10 n }, tokens⟩ := by
  -- Each digit that is read comes first in the number, so the scan holds them in the order of `Nat.digits`.
  induction n using Nat.strong_induction_on with
  | _ n ih =>
    by_cases small : n < 10
    · rw [Nat.toDigits_of_lt_base small, Nat.digits_of_lt 10 n positive.ne' small]
      interval_cases n <;> rfl
    · rw [Nat.toDigits_of_base_le (by decide) (not_lt.mp small), Nat.digits_def' (by decide) positive]
      refine (ih (n / 10) (by omega) (by omega)).append ?_
      refine .cons ?_ (.nil _)
      simp only [Scan.step?, NumberPart.step?, digit?_digitChar (Nat.mod_lt n (by decide : 0 < 10))]

theorem settles_number {part : NumberPart} (whole : part = .zero ∨ part = .whole) (n : NumberText)
    (tokens : List Token) : Settles ⟨.number part n, tokens⟩ (.number n.inOrder :: tokens) := by
  have settled : Scan.settle? ⟨.number part n, tokens⟩ = some ⟨.between, .number n.inOrder :: tokens⟩ := by
    rcases whole with rfl | rfl
    all_goals rfl
  refine ⟨settled, fun c follows => ?_⟩
  have stops : part.step? n c = none := by
    rw [isBlank_iff] at follows
    rcases whole with rfl | rfl
    all_goals
      rcases follows with (rfl | rfl | rfl | rfl) | rfl | rfl
      all_goals rfl
  simp only [Scan.step?, stops, settled, Option.bind_some]

theorem settles_word {letters : List Char} {token : Token} (word : Scan.word? letters = some token)
    (tokens : List Token) : Settles ⟨.word letters, tokens⟩ (token :: tokens) := by
  have settled : Scan.settle? ⟨.word letters, tokens⟩ = some ⟨.between, token :: tokens⟩ := by
    simp only [Scan.settle?, word]
    rfl
  refine ⟨settled, fun c follows => ?_⟩
  have stops : ¬ ('a' ≤ c ∧ c ≤ 'z') := by
    rw [isBlank_iff] at follows
    rcases follows with (rfl | rfl | rfl | rfl) | rfl | rfl
    all_goals decide
  simp only [Scan.step?, if_neg stops, settled, Option.bind_some]

theorem scans_scalar (scalar : Scalar) (tokens : List Token) :
    ∃ scan, Scans scalar.text.toList ⟨.between, tokens⟩ scan ∧ Settles scan (scalar.token :: tokens) := by
  cases scalar with
  | natural value =>
    have spelled : (Scalar.natural value).text.toList = Nat.toDigits 10 value.toNat := String.toList_ofList
    rw [spelled, Scalar.token]
    by_cases zero : value.toNat = 0
    · rw [zero]
      exact ⟨⟨.number .zero { whole := [0] }, tokens⟩, rfl, settles_number (.inl rfl) _ tokens⟩
    · refine ⟨_, scans_digits (Nat.pos_of_ne_zero zero) tokens, ?_⟩
      rw [Scalar.numeral, if_neg zero]
      exact settles_number (.inr rfl) _ tokens
  | bool value =>
    cases value with
    | true => exact ⟨⟨.word ['e', 'u', 'r', 't'], tokens⟩, rfl, settles_word rfl tokens⟩
    | false => exact ⟨⟨.word ['e', 's', 'l', 'a', 'f'], tokens⟩, rfl, settles_word rfl tokens⟩

def memberTokens : Members → List Token
  | [] => []
  | [(key, scalar)] => [.text key, .colon, scalar.token]
  | (key, scalar) :: rest => .text key :: .colon :: scalar.token :: .comma :: memberTokens rest

theorem scans_member {key : List Piece} {scalar : Scalar} {text : List Char}
    (member : MemberText key scalar text) (tokens : List Token) :
    ∃ scan, Scans text ⟨.between, tokens⟩ scan ∧
      Settles scan (scalar.token :: .colon :: .text key :: tokens) := by
  obtain ⟨keyText, front, beforeColon, afterColon, back⟩ := member
  have pieces := scans_pieces keyText [] tokens
  rw [List.append_nil] at pieces
  have closed : Scan.step? ⟨.text key.reverse, tokens⟩ '"' = some ⟨.between, .text key :: tokens⟩ := by
    simp [Scan.step?, Scan.push]
  obtain ⟨read, value, settles⟩ := scans_scalar scalar (.colon :: .text key :: tokens)
  obtain ⟨after, blanks, settled⟩ := settles.blanks back
  refine ⟨after, ?_, settled⟩
  refine (scans_blanks front tokens).append (.cons rfl (pieces.append (.cons closed ?_)))
  refine (scans_blanks beforeColon _).append (.cons rfl ?_)
  exact (scans_blanks afterColon _).append (value.append blanks)

theorem scans_members {members : Members} {text : List Char} (spelled : MembersText members text)
    (tokens : List Token) :
    ∃ scan, Scans text ⟨.between, tokens⟩ scan ∧
      Settles scan ((memberTokens members).reverse ++ tokens) := by
  induction spelled generalizing tokens with
  | last member => exact scans_member member tokens
  | @more key scalar members text rest member others ih =>
    obtain ⟨first, scansFirst, settlesFirst⟩ := scans_member member tokens
    obtain ⟨scan, scansRest, settles⟩ := ih (.comma :: scalar.token :: .colon :: .text key :: tokens)
    refine ⟨scan, scansFirst.append (.cons settlesFirst.comma scansRest), ?_⟩
    cases others with
    | last | more => simpa [memberTokens] using settles

theorem tokens?_object {members : Members} {text : List Char} (spelled : ObjectText members text) :
    tokens? text = some (.openObject :: (memberTokens members ++ [.closeObject])) := by
  have read : Scans text {} ⟨.between, .closeObject :: ((memberTokens members).reverse ++ [.openObject])⟩ := by
    cases spelled with
    | empty blanks =>
      obtain ⟨front, inside, back⟩ := blanks
      refine (scans_blanks front []).append (.cons rfl ?_)
      exact (scans_blanks inside _).append (.cons rfl (scans_blanks back _))
    | members blanks inside =>
      obtain ⟨scan, scansMembers, settles⟩ := scans_members inside [.openObject]
      refine (scans_blanks blanks.1 []).append (.cons rfl (scansMembers.append ?_))
      exact .cons settles.closeObject (scans_blanks blanks.2 _)
  unfold Scans Leads at read
  simp [tokens?, read, Scan.settle?]

end Scanning

section Building

def memberValues (members : Members) : List (List Piece × Value) :=
  members.map fun (key, scalar) => (key, scalar.value)

theorem beginValue?_token (scalar : Scalar) (frames : List Frame) :
    Builder.beginValue? frames scalar.token = some (Builder.complete frames scalar.value) := by
  cases scalar with
  | natural => rfl
  | bool => rfl

theorem builds_members {members : Members} (nonempty : members ≠ []) (start : Builder)
    (before : List (List Piece × Value))
    (opens : ∀ key, start.step? (.text key) = some ⟨[], .colon before key⟩) :
    ∃ last, Leads Builder.step? (memberTokens members) start
      ⟨[.object ((memberValues members).reverse ++ before) last], .separator⟩ := by
  -- An object begins with a first key and goes on with keys after commas. Both states open a member in the same way,
  -- which is all that the induction asks of the one it starts from.
  induction members generalizing start before with
  | nil => exact absurd rfl nonempty
  | cons first rest ih =>
    obtain ⟨key, scalar⟩ := first
    have value := beginValue?_token scalar [.object before key]
    cases rest with
    | nil => exact ⟨key, .cons (opens key) (.cons rfl (.cons value (.nil _)))⟩
    | cons second rest =>
      obtain ⟨last, others⟩ := ih (List.cons_ne_nil second rest) ⟨[], .key ((key, scalar.value) :: before)⟩
        ((key, scalar.value) :: before) fun _ => rfl
      refine ⟨last, .cons (opens key) (.cons rfl (.cons value (.cons rfl ?_)))⟩
      simpa [memberValues] using others

theorem parse?_object {members : Members} {text : String} (spelled : ObjectText members text.toList) :
    Value.parse? text = some (.object (memberValues members)) := by
  have built : Leads Builder.step? (.openObject :: (memberTokens members ++ [.closeObject])) {}
      ⟨[], .nothing (.object (memberValues members))⟩ := by
    by_cases empty : members = []
    · subst empty
      rfl
    · obtain ⟨last, builds⟩ := builds_members empty ⟨[], .firstKey⟩ [] fun _ => rfl
      refine .cons rfl (builds.append (.cons ?_ (.nil _)))
      simp [Builder.step?, Builder.complete]
  unfold Leads at built
  simp [Value.parse?, tokens?_object spelled, Value.ofTokens?, built, Builder.value?]

end Building

section Numbers

theorem le_foldl_digits (digits : List Nat) (significand : Nat) :
    significand ≤ digits.foldl (fun significand d => 10 * significand + d) significand := by
  induction digits generalizing significand with
  | nil => exact le_rfl
  | cons d rest ih => exact le_trans (by omega) (ih (10 * significand + d))

theorem absorb_eq {largest : Nat} {digits : List Nat} {significand : Nat}
    (room : digits.foldl (fun significand d => 10 * significand + d) significand ≤ largest) :
    NumberText.absorb largest significand digits =
      (digits.foldl (fun significand d => 10 * significand + d) significand, digits.length) := by
  induction digits generalizing significand with
  | nil => rfl
  | cons d rest ih =>
    have fits := (le_foldl_digits rest (10 * significand + d)).trans room
    rw [NumberText.absorb, if_neg fits.not_gt, ih room]
    rfl

theorem foldl_numeral (n : Nat) :
    (Scalar.numeral n).whole.foldl (fun significand d => 10 * significand + d) 0 = n := by
  unfold Scalar.numeral
  split
  next zero => rw [zero]; rfl
  next =>
    rw [List.foldl_reverse]
    calc (Nat.digits 10 n).foldr (fun d significand => 10 * significand + d) 0
      _ = Nat.ofDigits 10 (Nat.digits 10 n) := by
        rw [Nat.ofDigits_eq_foldr]
        congr 1
        funext d significand
        exact Nat.add_comm _ _
      _ = n := Nat.ofDigits_digits 10 n

theorem uint64?_natural (value : UInt64) : (Scalar.natural value).value.uint64? = some value := by
  have digits := foldl_numeral value.toNat
  have room : (Scalar.numeral value.toNat).whole.foldl (fun significand d => 10 * significand + d) 0 ≤
      NumberText.largestSignificand := by
    rw [digits]
    exact Nat.le_of_lt_succ value.toNat_lt
  have read := absorb_eq room
  rw [digits] at read
  have number : (Scalar.numeral value.toNat).number? = some (.natural value) := by
    rw [NumberText.number?, read]
    simp [Scalar.numeral]
  simp only [Scalar.value, Value.uint64?, Value.number?, number, Option.bind_some, Number.uint64?]

theorem bool?_bool (value : Bool) : (Scalar.bool value).value.bool? = some value := rfl

end Numbers

section Packages

def Spell (fields : List (String × Scalar)) (members : Members) : Prop :=
  List.Forall₂ (fun field member => string? member.1 = some field.1 ∧ member.2 = field.2) fields members

/-- A package reads an object of natural numbers of 64 bits and truth values as what it spells, however it is laid out,
and what it writes of fields with plain names is such an object. -/
structure Package.Strict (package : Package) : Prop where
  reads : ∀ (members : Members) (text : String), ObjectText members text.toList →
    package.read text = some (.object (memberValues members))
  writes : ∀ fields : List (String × Scalar), (∀ field ∈ fields, field.1.toList.all isPlain = true) →
    ∃ members : Members, ObjectText members (package.write fields).toList ∧ Spell fields members

theorem escape_plain {c : Char} (plain : isPlain c = true) : escape c = [c] := by
  simp only [isPlain, Bool.and_eq_true, bne_iff_ne, Bool.not_eq_true', decide_eq_false_iff_not] at plain
  obtain ⟨⟨noQuote, noBackslash⟩, visible⟩ := plain
  unfold escape
  split
  case h_1 => exact absurd rfl noQuote
  case h_2 => exact absurd rfl noBackslash
  case h_8 => exact if_neg visible
  -- The characters that are left are control characters.
  all_goals exact absurd (by decide) visible

theorem quote_plain {text : String} (plain : text.toList.all isPlain = true) :
    (quote text).toList = '"' :: (text.toList ++ ['"']) := by
  have unescaped : text.toList.flatMap escape = text.toList := by
    rw [List.all_eq_true] at plain
    rw [List.flatMap_congr fun c member => escape_plain (plain c member), List.flatMap_singleton']
  rw [quote, String.toList_ofList, unescaped]

def plainMember (field : String × Scalar) : List Piece × Scalar := (field.1.toList.map .char, field.2)

theorem memberText_line {field : String × Scalar} (plain : field.1.toList.all isPlain = true) {back : List Char}
    (blanks : Blanks back) :
    MemberText (plainMember field).1 (plainMember field).2 ('\n' :: ((line field).toList ++ back)) := by
  have quoted := quote_plain plain
  have indent : Blanks ['\n', ' ', ' '] := rfl
  have space : Blanks [' '] := rfl
  have none : Blanks [] := rfl
  have member : MemberText (field.1.toList.map .char) field.2 _ :=
    .mk (keyText_plain plain) ⟨indent, none, space, blanks⟩
  simpa [line, quoted, plainMember] using member

theorem membersText_lines {fields : List (String × Scalar)} (nonempty : fields ≠ [])
    (plain : ∀ field ∈ fields, field.1.toList.all isPlain = true) :
    MembersText (fields.map plainMember)
      ('\n' :: ((String.intercalate ",\n" (fields.map line)).toList ++ ['\n'])) := by
  induction fields with
  | nil => exact absurd rfl nonempty
  | cons first rest ih =>
    obtain ⟨here, others⟩ := List.forall_mem_cons.mp plain
    cases rest with
    | nil => exact .last (memberText_line here rfl)
    | cons second rest =>
      have none : Blanks [] := rfl
      have together := MembersText.more (memberText_line here none) (ih (List.cons_ne_nil second rest) others)
      simp only [List.map_cons, String.intercalate_cons_cons, String.toList_append]
      simpa using together

theorem objectText_lines {fields : List (String × Scalar)} (plain : ∀ field ∈ fields, field.1.toList.all isPlain = true) :
    ObjectText (fields.map plainMember) (writeLines fields).toList := by
  have none : Blanks [] := rfl
  by_cases empty : fields = []
  · subst empty
    have between : Blanks ['\n', '\n'] := rfl
    exact .empty ⟨none, between, none⟩
  · have object := ObjectText.members ⟨none, none⟩ (membersText_lines empty plain)
    simpa [writeLines] using object

theorem builtIn_strict : Package.builtIn.Strict where
  reads _ _ spelled := parse?_object spelled
  writes fields plain := by
    refine ⟨fields.map plainMember, objectText_lines plain, ?_⟩
    rw [Spell, List.forall₂_map_right_iff, List.forall₂_same]
    exact fun field _ => ⟨string?_plain field.1, rfl⟩

end Packages

end PostingQuery.Json
