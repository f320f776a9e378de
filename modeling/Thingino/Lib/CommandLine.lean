import Thingino.Lib.CString

/-! A command line, as the POSIX shell takes it apart.

`command` reads a line that is one simple command of literal words: whatever the variables, the files and the
directory, the shell runs this command and nothing else. For any other line, which has a second command, an
expansion, a pattern or a quote that is left open, it gives `none`. What stands between double quotes comes
through byte by byte exactly where `quotable` holds (`lex_double_iff`). -/
namespace Thingino.Lib.CommandLine

/-- The bytes of a word; the flag is set where a byte is quoted. -/
abbrev Word := List (Byte × Bool)

def Word.text (word : Word) : List Byte := word.map Prod.fst

/-- Where the next byte stands; a word has begun where there is one. -/
inductive Mode
  | plain (word : Option Word)
  | escaped (word : Word)
  | single (word : Word)
  | double (word : Word)
  | doubleEscaped (word : Word)

inductive Token
  | word (word : Word)
  | into (fd : Nat)

/-! ### Bytes -/

def isNameStart (b : Byte) : Bool := 65 ≤ b.toNat && b.toNat ≤ 90 || 97 ≤ b.toNat && b.toNat ≤ 122 || b = 95

/-- What makes a `$` in front of it a parameter, a command substitution or an arithmetic expansion. -/
def startsExpansion (b : Byte) : Bool :=
  isNameStart b || isDigit b || (ascii "@*#?-$!\x7b(").contains b

/-- The byte behind a `$` makes it an expansion; the end of the line does not. -/
def expands (s : List Byte) : Bool := s.head?.any startsExpansion

/-- What a backslash between double quotes escapes, the newline apart. -/
def isSpecial (b : Byte) : Bool := (ascii "$\"\\").contains b || b = 96

/-- What ends a simple command, or begins something that is none. -/
def isOperator (b : Byte) : Bool := (ascii ";&|<()").contains b || b = 10 || b = 96

def isBlank (b : Byte) : Bool := b = 32 || b = 9

/-! ### Words -/

/-- A `>`, with the number in front of it. -/
def redirect (opened : Option Word) (s : List Byte) : Option (List Token × Mode) :=
  if s.head?.any fun d => d = 62 || d = 38 || d = 124 then none
  else
    match opened with
    | none => some ([.into 1], .plain none)
    | some word =>
      if !word.isEmpty && word.all fun p => isDigit p.1 && !p.2 then
        some ([.into (word.foldl (fun n p => 10 * n + (p.1.toNat - 48)) 0)], .plain none)
      else some ([.word word, .into 1], .plain none)

/-- What a byte ends, and where the next one stands; a line that is continued is not read. -/
def step (mode : Mode) (c : Byte) (s : List Byte) : Option (List Token × Mode) :=
  match mode with
  | .plain opened =>
    if c = 92 then some ([], .escaped (opened.getD []))
    else if c = 39 then some ([], .single (opened.getD []))
    else if c = 34 then some ([], .double (opened.getD []))
    else if isBlank c then some (opened.toList.map .word, .plain none)
    else if c = 62 then redirect opened s
    else if isOperator c then none
    else if c = 36 && (expands s || s.head?.any fun d => d = 39 || d = 34) then none
    else if (c = 35 || c = 126) && opened.isNone then none
    else some ([], .plain (some (opened.getD [] ++ [(c, false)])))
  | .escaped word => if c = 10 then none else some ([], .plain (some (word ++ [(c, true)])))
  | .single word => if c = 39 then some ([], .plain (some word)) else some ([], .single (word ++ [(c, true)]))
  | .double word =>
    if c = 34 then some ([], .plain (some word))
    else if c = 92 then some ([], .doubleEscaped word)
    else if c = 96 then none
    else if c = 36 && expands s then none
    else some ([], .double (word ++ [(c, true)]))
  | .doubleEscaped word =>
    if c = 10 then none
    else if isSpecial c then some ([], .double (word ++ [(c, true)]))
    else some ([], .double (word ++ [(92, true), (c, true)]))

def finish : Mode → Option (List Token)
  | .plain opened => some (opened.toList.map .word)
  | _ => none

/-- The words of a line, and where its output goes. -/
def lex : Mode → List Byte → Option (List Token)
  | mode, [] => finish mode
  | mode, c :: s => (step mode c s).bind fun next => (lex next.2 s).map (next.1 ++ ·)

/-- A bracket expression: a `[`, perhaps a sign that inverts it, at least one byte and a `]`. -/
def bracket (word : Word) : Bool :=
  match word with
  | (91, false) :: rest =>
    let rest := if rest.head? = some (33, false) ∨ rest.head? = some (94, false) then rest.tail else rest
    rest.tail.any fun p => p = (93, false)
  | _ => false

/-- What files can match. -/
def isPattern (word : Word) : Bool :=
  word.any (fun p => p = (42, false) || p = (63, false)) || word.tails.any bracket

/-- The word where a command begins: no reserved word, and no assignment. -/
def isCommandName (word : Word) : Bool :=
  !(word.any fun p => p = (61, false)) &&
    !(word.all (!·.2) && (["!", "\x7b", "\x7d", "case", "do", "done", "elif", "else", "esac", "fi", "for", "if", "in",
      "then", "until", "while"].any fun reserved => word.text = ascii reserved))

/-! ### Commands -/

structure Redirect where
  fd : Nat
  target : List Byte
  deriving DecidableEq

/-- A simple command of literal words. -/
structure Command where
  argv : List (List Byte)
  redirects : List Redirect
  deriving DecidableEq

/-- The words and the redirections of a command. -/
def collect : List Token → Option Command
  | [] => some ⟨[], []⟩
  | .word word :: tokens =>
    if isPattern word then none
    else (collect tokens).map fun c => ⟨word.text :: c.argv, c.redirects⟩
  | [.into _] => none
  | .into _ :: .into _ :: _ => none
  | .into fd :: .word word :: tokens => (collect tokens).map fun c => ⟨c.argv, ⟨fd, word.text⟩ :: c.redirects⟩

def firstWord : List Token → Option Word
  | .word word :: _ => some word
  | _ => none

/-- The simple command that a line is. -/
def command (line : List Byte) : Option Command :=
  (lex (.plain none) line).bind fun tokens =>
    if (firstWord tokens).any isCommandName then collect tokens else none

/-! ### Bytes that come through -/

/-- Between double quotes each byte of the text stands for itself. -/
def quotable : List Byte → Bool
  | [] => true
  | c :: s =>
    c ≠ 34 && c ≠ 96 && !(c = 36 && expands s) && !(c = 92 && s.head?.all fun d => isSpecial d || d = 10) && quotable s

/-- Without quotes each byte of the text stands for itself. -/
def bareBytes : List Byte → Bool
  | [] => true
  | c :: s =>
    !(c = 92 || c = 39 || c = 34 || isBlank c || c = 62 || isOperator c) &&
      !(c = 36 && (expands s || s.head?.any fun d => d = 39 || d = 34)) && bareBytes s

/-- A text that is a word as it stands. -/
def isBare (s : List Byte) : Bool :=
  s ≠ [] && bareBytes s && !(s.head?.any fun c => c = 35 || c = 126) && !isPattern (s.map (·, false))

/-! ### How many bytes the words have -/

def Token.size : Token → Nat
  | .word w => w.length
  | .into _ => 0

def size : List Token → Nat
  | [] => 0
  | token :: tokens => token.size + size tokens

@[simp] theorem size_nil : size [] = 0 := rfl

@[simp] theorem size_cons (token : Token) (tokens : List Token) : size (token :: tokens) = token.size + size tokens :=
  rfl

@[simp] theorem size_append (a b : List Token) : size (a ++ b) = size a + size b := by
  induction a with
  | nil => exact (Nat.zero_add _).symm
  | cons token a ih => rw [List.cons_append, size_cons, size_cons, ih, Nat.add_assoc]

/-- The bytes that the word has already; a backslash may turn out to be one. -/
def Mode.size : Mode → Nat
  | .plain word => (word.getD []).length
  | .escaped word => word.length + 1
  | .single word => word.length
  | .double word => word.length
  | .doubleEscaped word => word.length + 1

section Lex
variable {word : Word} {opened : Option Word} {mode : Mode} {c : Byte} {s t : List Byte} {tokens rest : List Token}

theorem lex_cons (mode : Mode) (c : Byte) (s : List Byte) :
    lex mode (c :: s) = (step mode c s).bind fun next => (lex next.2 s).map (next.1 ++ ·) := rfl

theorem size_words (opened : Option Word) : size (opened.toList.map .word) = (opened.getD []).length := by
  cases opened <;> rfl

theorem redirect_size {out : List Token} {mode' : Mode} (h : redirect opened s = some (out, mode')) :
    mode' = .plain none ∧ size out ≤ (opened.getD []).length := by
  unfold redirect at h
  split at h
  · cases h
  · cases opened with
    | none =>
      cases h
      exact ⟨rfl, Nat.le_refl 0⟩
    | some word =>
      dsimp only at h
      split at h <;> cases h <;> simp [Token.size]

/-- One byte takes the words at most one byte further. -/
theorem step_size {out : List Token} {mode' : Mode} (h : step mode c s = some (out, mode')) :
    size out + mode'.size ≤ mode.size + 1 := by
  cases mode with
  | plain opened =>
    simp only [step] at h
    split_ifs at h <;> try cases h
    · simp [Mode.size]
    · simp [Mode.size]
    · simp [Mode.size]
    · simp [Mode.size, size_words]
    · obtain ⟨rfl, hsize⟩ := redirect_size h
      simpa [Mode.size] using Nat.le_succ_of_le hsize
    · simp [Mode.size]
  | escaped word =>
    simp only [step] at h
    split_ifs at h
    cases h
    simp [Mode.size]
  | single word =>
    simp only [step] at h
    split_ifs at h <;> cases h <;> simp [Mode.size]
  | double word =>
    simp only [step] at h
    split_ifs at h <;> cases h <;> simp [Mode.size]
  | doubleEscaped word =>
    simp only [step] at h
    split_ifs at h <;> cases h <;> simp [Mode.size]

theorem lex_cons_eq_some (h : lex mode (c :: s) = some tokens) :
    ∃ out mode' more, step mode c s = some (out, mode') ∧ lex mode' s = some more ∧ tokens = out ++ more := by
  rw [lex_cons] at h
  obtain ⟨⟨out, mode'⟩, hstep, hmap⟩ := Option.bind_eq_some_iff.mp h
  obtain ⟨more, hmore, hall⟩ := Option.map_eq_some_iff.mp hmap
  exact ⟨out, mode', more, hstep, hmore, hall.symm⟩

theorem lex_silent {mode' : Mode} (h : step mode c s = some ([], mode')) : lex mode (c :: s) = lex mode' s := by
  rw [lex_cons, h, Option.bind_some]
  cases lex mode' s <;> rfl

/-- A line has no more bytes in its words than it has. -/
theorem lex_size (h : lex mode s = some tokens) : size tokens ≤ mode.size + s.length := by
  induction s generalizing mode tokens with
  | nil =>
    cases mode with
    | plain opened =>
      cases h
      exact Nat.le_of_eq (size_words opened)
    | escaped word => cases h
    | single word => cases h
    | double word => cases h
    | doubleEscaped word => cases h
  | cons c s ih =>
    obtain ⟨out, mode', more, hstep, hmore, rfl⟩ := lex_cons_eq_some h
    have hsize := step_size hstep
    have hrest := ih hmore
    rw [size_append, List.length_cons]
    omega

/-! ### Between double quotes -/

theorem step_double (word : Word) (c : Byte) (s : List Byte) :
    step (.double word) c s =
      if c = 34 then some ([], .plain (some word))
      else if c = 92 then some ([], .doubleEscaped word)
      else if c = 96 then none
      else if c = 36 && expands s then none
      else some ([], .double (word ++ [(c, true)])) := rfl

/-- What is open at the end is no command. -/
theorem lex_double_open (h : (34 : Byte) ∉ t) (word : Word) :
    lex (.double word) t = none ∧ lex (.doubleEscaped word) t = none := by
  induction t generalizing word with
  | nil => exact ⟨rfl, rfl⟩
  | cons c t ih =>
    rw [List.mem_cons, not_or] at h
    constructor
    · rw [lex_cons, step_double, if_neg (Ne.symm h.1)]
      split_ifs
      · exact congrArg (Option.map _) (ih h.2 word).2
      · rfl
      · rfl
      · exact congrArg (Option.map _) (ih h.2 _).1
    · rw [lex_cons, step]
      split_ifs
      · rfl
      · exact congrArg (Option.map _) (ih h.2 _).1
      · exact congrArg (Option.map _) (ih h.2 _).1

theorem lex_single_open (h : (39 : Byte) ∉ t) (word : Word) : lex (.single word) t = none := by
  induction t generalizing word with
  | nil => rfl
  | cons c t ih =>
    rw [List.mem_cons, not_or] at h
    rw [lex_cons, step, if_neg (Ne.symm h.1)]
    exact congrArg (Option.map _) (ih h.2 _)

/-- A double quote that is open costs a byte, the one that closes it. -/
theorem lex_double_size {word : Word} {tokens : List Token} :
    (lex (.double word) s = some tokens → size tokens + 1 ≤ word.length + s.length) ∧
      (lex (.doubleEscaped word) s = some tokens → size tokens ≤ word.length + s.length) := by
  induction s generalizing word tokens with
  | nil =>
    constructor
    · intro h
      cases h
    · intro h
      cases h
  | cons c s ih =>
    rw [List.length_cons]
    constructor
    · intro h
      obtain ⟨out, mode', more, hstep, hmore, rfl⟩ := lex_cons_eq_some h
      rw [step_double] at hstep
      split_ifs at hstep
      · cases hstep
        have hle := lex_size hmore
        simp [Mode.size] at hle ⊢
        omega
      · cases hstep
        have hle := ih.2 hmore
        simp at hle ⊢
        omega
      · cases hstep
        have hle := ih.1 hmore
        simp at hle ⊢
        omega
    · intro h
      obtain ⟨out, mode', more, hstep, hmore, rfl⟩ := lex_cons_eq_some h
      simp only [step] at hstep
      split_ifs at hstep
      · cases hstep
        have hle := ih.1 hmore
        simp at hle ⊢
        omega
      · cases hstep
        have hle := ih.1 hmore
        simp at hle ⊢
        omega

/-- Whatever stands in front of a double quote, the words behind it are the same where the line is a command. -/
theorem lex_front (hdouble : (34 : Byte) ∉ t) (hsingle : (39 : Byte) ∉ t)
    (hrest : ∀ word, lex (.plain (some word)) t = some (.word word :: rest))
    (h : lex mode (s ++ 34 :: t) = some tokens) :
    ∃ front word, tokens = front ++ .word word :: rest ∧ size front + word.length ≤ mode.size + s.length := by
  induction s generalizing mode tokens with
  | nil =>
    obtain ⟨out, mode', more, hstep, hmore, rfl⟩ := lex_cons_eq_some h
    cases mode with
    | plain opened =>
      cases hstep
      rw [(lex_double_open hdouble _).1] at hmore
      cases hmore
    | escaped word =>
      cases hstep
      rw [hrest] at hmore
      cases hmore
      exact ⟨[], _, rfl, by simp [Mode.size]⟩
    | single word =>
      cases hstep
      rw [lex_single_open hsingle] at hmore
      cases hmore
    | double word =>
      cases hstep
      rw [hrest] at hmore
      cases hmore
      exact ⟨[], _, rfl, by simp [Mode.size]⟩
    | doubleEscaped word =>
      cases hstep
      rw [(lex_double_open hdouble _).1] at hmore
      cases hmore
  | cons c s ih =>
    rw [List.cons_append] at h
    obtain ⟨out, mode', more, hstep, hmore, rfl⟩ := lex_cons_eq_some h
    obtain ⟨front, word, rfl, hsize⟩ := ih hmore
    have hout := step_size hstep
    refine ⟨out ++ front, word, (List.append_assoc _ _ _).symm, ?_⟩
    rw [size_append, List.length_cons]
    omega

theorem size_front (hdouble : (34 : Byte) ∉ t) (hsingle : (39 : Byte) ∉ t)
    (hrest : ∀ word, lex (.plain (some word)) t = some (.word word :: rest))
    (h : lex mode (s ++ 34 :: t) = some tokens) : size tokens ≤ mode.size + s.length + size rest := by
  obtain ⟨front, word, rfl, hle⟩ := lex_front hdouble hsingle hrest h
  rw [size_append, size_cons]
  simp only [Token.size]
  omega

theorem quotable_cons (hquote : c ≠ 34) (htick : c ≠ 96) (hdollar : ¬(c = 36 && expands s) = true)
    (hback : ¬(c = 92 && s.head?.all fun d => isSpecial d || d = 10) = true) : quotable (c :: s) = quotable s := by
  rw [quotable, decide_eq_true hquote, decide_eq_true htick, Bool.eq_false_iff.mpr hdollar, Bool.eq_false_iff.mpr hback]
  rfl

/-- A backslash in front of a byte that needs none, and this byte. -/
theorem quotable_backslash {d : Byte} (hspecial : isSpecial d = false) (hline : d ≠ 10) :
    quotable (92 :: d :: s) = quotable s := by
  have hd : d ≠ 34 ∧ d ≠ 96 ∧ d ≠ 36 ∧ d ≠ 92 := by
    refine ⟨?_, ?_, ?_, ?_⟩ <;> exact fun heq => absurd hspecial (heq ▸ Bool.noConfusion)
  have hback : ¬((92 : Byte) = 92 && (d :: s).head?.all fun e => isSpecial e || e = 10) = true := by
    rw [List.head?_cons, Option.all_some, hspecial, decide_eq_false hline, Bool.or_self, Bool.and_false]
    exact Bool.false_ne_true
  calc quotable (92 :: d :: s)
      = quotable (d :: s) := quotable_cons (by decide) (by decide) (fun h => Bool.false_ne_true h) hback
    _ = quotable s := quotable_cons hd.1 hd.2.1 (by rw [decide_eq_false hd.2.2.1]; exact Bool.false_ne_true)
        (by rw [decide_eq_false hd.2.2.2]; exact Bool.false_ne_true)

theorem expands_quote (s t : List Byte) : expands (s ++ 34 :: t) = expands s := by
  cases s <;> rfl

/-- A text that comes through between double quotes. -/
theorem lex_quotable (h : quotable s = true) (word : Word) (t : List Byte) :
    lex (.double word) (s ++ 34 :: t) = lex (.plain (some (word ++ s.map (·, true)))) t := by
  generalize hn : s.length = n
  induction n using Nat.strong_induction_on generalizing s word with
  | _ n ih =>
    cases s with
    | nil =>
      rw [List.map_nil, List.append_nil, List.nil_append]
      exact lex_silent rfl
    | cons c s =>
      rw [List.length_cons] at hn
      simp only [quotable, Bool.and_eq_true, decide_eq_true_eq, Bool.not_eq_true'] at h
      obtain ⟨⟨⟨⟨hquote, htick⟩, hdollar⟩, hback⟩, hs⟩ := h
      have hstep := step_double word c (s ++ 34 :: t)
      rw [if_neg hquote, expands_quote] at hstep
      by_cases hc : c = 92
      · -- A backslash and the byte behind it, both of which stay.
        rw [if_pos hc] at hstep
        cases s with
        | nil => simp [hc] at hback
        | cons d s =>
          have hd : isSpecial d = false ∧ d ≠ 10 := by simpa [hc] using hback
          have hnext : step (.doubleEscaped word) d (s ++ 34 :: t) = some ([], .double (word ++ [(92, true), (d, true)])) := by
            rw [step, if_neg hd.2, hd.1, if_neg Bool.false_ne_true]
          simp only [quotable, Bool.and_eq_true] at hs
          rw [List.cons_append, lex_silent hstep, List.cons_append, lex_silent hnext,
            ih s.length (by rw [List.length_cons] at hn; omega) hs.2 _ rfl, hc]
          simp
      · rw [if_neg hc, if_neg htick, hdollar, if_neg Bool.false_ne_true] at hstep
        rw [List.cons_append, lex_silent hstep, ih s.length (by omega) hs _ rfl]
        simp

/-- A byte with a backslash in front of it, where it is a double quote or a backslash. -/
def escapeByte (c : Byte) : List Byte := if c = 34 ∨ c = 92 then [92, c] else [c]

/-- What is left to go wrong in a text whose quotes and backslashes are escaped. -/
def harmless : List Byte → Bool
  | [] => true
  | c :: s => c ≠ 96 && !(c = 36 && expands s) && harmless s

theorem expands_escaped (s t : List Byte) : expands (s.flatMap escapeByte ++ 34 :: t) = expands s := by
  cases s with
  | nil => rfl
  | cons d s =>
    rw [List.flatMap_cons, escapeByte]
    split
    · rename_i hd
      rcases hd with rfl | rfl <;> rfl
    · rfl

/-- A text whose quotes and backslashes are escaped comes through, or runs something. -/
theorem lex_escaped (word : Word) (s t : List Byte) :
    lex (.double word) (s.flatMap escapeByte ++ 34 :: t) =
      if harmless s then lex (.plain (some (word ++ s.map (·, true)))) t else none := by
  induction s generalizing word with
  | nil =>
    rw [List.map_nil, List.append_nil]
    exact lex_silent rfl
  | cons c s ih =>
    rw [List.flatMap_cons, List.append_assoc]
    by_cases hc : c = 34 ∨ c = 92
    · have hsilent : step (.doubleEscaped word) c (s.flatMap escapeByte ++ 34 :: t) = some ([], .double (word ++ [(c, true)])) := by
        rcases hc with rfl | rfl <;> rfl
      have hharmless : harmless (c :: s) = harmless s := by
        rcases hc with rfl | rfl <;> rfl
      rw [escapeByte, if_pos hc, List.cons_append, @lex_silent _ _ _ (.doubleEscaped word) rfl, List.singleton_append,
        lex_silent hsilent, ih, hharmless]
      simp
    · rw [not_or] at hc
      have hstep := step_double word c (s.flatMap escapeByte ++ 34 :: t)
      rw [if_neg hc.1, if_neg hc.2, expands_escaped] at hstep
      rw [escapeByte, if_neg (not_or.mpr hc), List.singleton_append, harmless]
      by_cases htick : c = 96
      · rw [if_pos htick] at hstep
        rw [lex_cons, hstep, htick]
        rfl
      · rw [if_neg htick] at hstep
        by_cases hdollar : (c = 36 && expands s) = true
        · rw [if_pos hdollar] at hstep
          rw [lex_cons, hstep, hdollar, Bool.not_true, Bool.and_false, Bool.false_and]
          rfl
        · rw [if_neg hdollar] at hstep
          rw [lex_silent hstep, ih, Bool.eq_false_iff.mpr hdollar, decide_eq_true htick]
          simp

/-- A text that loses no byte between double quotes is one that comes through. -/
theorem quotable_of_lex (hdouble : (34 : Byte) ∉ t) (hsingle : (39 : Byte) ∉ t)
    (hrest : ∀ word, lex (.plain (some word)) t = some (.word word :: rest))
    (h : lex (.double word) (s ++ 34 :: t) = some tokens) (hsize : word.length + s.length + size rest ≤ size tokens) :
    quotable s = true := by
  generalize hn : s.length = n
  induction n using Nat.strong_induction_on generalizing s word tokens with
  | _ n ih =>
    cases s with
    | nil => rfl
    | cons c s =>
      rw [List.length_cons] at hn hsize
      rw [List.cons_append] at h
      have hstep := step_double word c (s ++ 34 :: t)
      rw [expands_quote] at hstep
      by_cases hquote : c = 34
      · rw [if_pos hquote] at hstep
        have hle := size_front hdouble hsingle hrest (lex_silent hstep ▸ h)
        simp only [Mode.size, Option.getD_some] at hle
        omega
      rw [if_neg hquote] at hstep
      by_cases hback : c = 92
      · rw [if_pos hback] at hstep
        rw [lex_silent hstep] at h
        cases s with
        | nil =>
          rw [List.nil_append, lex_silent rfl, (lex_double_open hdouble _).1] at h
          cases h
        | cons d s =>
          rw [List.length_cons] at hn hsize
          rw [List.cons_append] at h
          by_cases hline : d = 10
          · rw [lex_cons, step, if_pos hline] at h
            cases h
          · by_cases hspecial : isSpecial d = true
            · have hnext : step (.doubleEscaped word) d (s ++ 34 :: t) = some ([], .double (word ++ [(d, true)])) := by
                rw [step, if_neg hline, if_pos hspecial]
              have hle := size_front hdouble hsingle hrest (lex_silent hnext ▸ h)
              simp only [Mode.size, List.length_append, List.length_singleton] at hle
              omega
            · have hnext : step (.doubleEscaped word) d (s ++ 34 :: t) =
                  some ([], .double (word ++ [(92, true), (d, true)])) := by
                rw [step, if_neg hline, if_neg hspecial]
              have hs := ih s.length (by omega) (lex_silent hnext ▸ h) (by simp; omega) rfl
              rw [hback, quotable_backslash (Bool.eq_false_iff.mpr hspecial) hline]
              exact hs
      · rw [if_neg hback] at hstep
        by_cases htick : c = 96
        · rw [if_pos htick] at hstep
          rw [lex_cons, hstep] at h
          cases h
        · rw [if_neg htick] at hstep
          by_cases hdollar : (c = 36 && expands s) = true
          · rw [if_pos hdollar] at hstep
            rw [lex_cons, hstep] at h
            cases h
          · rw [if_neg hdollar] at hstep
            have hs := ih s.length (by omega) (lex_silent hstep ▸ h) (by simp; omega) rfl
            rw [quotable_cons hquote htick hdollar (by rw [decide_eq_false hback]; exact Bool.false_ne_true)]
            exact hs

/-! ### Words without quotes -/

theorem head?_append_blank (ht : t = [] ∨ t.head? = some 32) (q : Byte → Bool) (hq : q 32 = false) :
    (s ++ t).head?.any q = s.head?.any q := by
  cases s with
  | nil =>
    rcases ht with rfl | ht
    · rfl
    · rw [List.nil_append, ht]
      exact hq
  | cons c s => rfl

theorem step_bare (h : bareBytes (c :: s) = true) (ht : t = [] ∨ t.head? = some 32)
    (hopen : ¬((c = 35 || c = 126) && opened.isNone) = true) :
    step (.plain opened) c (s ++ t) = some ([], .plain (some (opened.getD [] ++ [(c, false)]))) := by
  simp only [bareBytes, Bool.and_eq_true, Bool.not_eq_true', Bool.or_eq_false_iff, decide_eq_false_iff_not] at h
  obtain ⟨⟨⟨⟨⟨⟨⟨hback, hsingle⟩, hdouble⟩, hblank⟩, hinto⟩, hop⟩, hdollar⟩, -⟩ := h
  have hquote := head?_append_blank (s := s) ht (fun d => d = 39 || d = 34) rfl
  have hexp : expands (s ++ t) = expands s := head?_append_blank ht startsExpansion rfl
  rw [step, if_neg hback, if_neg hsingle, if_neg hdouble, hblank, if_neg Bool.false_ne_true, if_neg hinto, hop,
    if_neg Bool.false_ne_true, hexp, hquote, hdollar, if_neg Bool.false_ne_true, if_neg hopen]

theorem lex_bare (h : bareBytes s = true) (ht : t = [] ∨ t.head? = some 32) (word : Word) :
    lex (.plain (some word)) (s ++ t) = lex (.plain (some (word ++ s.map (·, false)))) t := by
  induction s generalizing word with
  | nil => rw [List.map_nil, List.append_nil, List.nil_append]
  | cons c s ih =>
    have hs : bareBytes s = true := by
      simp only [bareBytes, Bool.and_eq_true] at h
      exact h.2
    have hstep := @step_bare (some word) c s t h ht (by simp)
    rw [List.cons_append, lex_silent hstep, ih hs]
    simp

/-- A word that stands for itself. -/
theorem lex_word (hne : s ≠ []) (hbare : bareBytes s = true)
    (hfirst : s.head?.any (fun c => c = 35 || c = 126) = false) (ht : t = [] ∨ t.head? = some 32) :
    lex (.plain none) (s ++ t) = lex (.plain (some (s.map (·, false)))) t := by
  cases s with
  | nil => exact absurd rfl hne
  | cons c s =>
    have hs : bareBytes s = true := by
      simp only [bareBytes, Bool.and_eq_true] at hbare
      exact hbare.2
    have hopen : ¬((c = 35 || c = 126) && (none : Option Word).isNone) = true := by
      rw [List.head?_cons, Option.any_some] at hfirst
      rw [hfirst, Bool.false_and]
      exact Bool.false_ne_true
    rw [List.cons_append, lex_silent (step_bare hbare ht hopen), lex_bare hs ht]
    rfl

theorem quotable_of_bareBytes (h : bareBytes s = true) : quotable s = true := by
  induction s with
  | nil => rfl
  | cons c s ih =>
    simp only [bareBytes, Bool.and_eq_true, Bool.not_eq_true', Bool.or_eq_false_iff, decide_eq_false_iff_not] at h
    obtain ⟨⟨⟨⟨⟨⟨⟨hback, hsingle⟩, hdouble⟩, hblank⟩, hinto⟩, hop⟩, hdollar⟩, hs⟩ := h
    have htick : c ≠ 96 := fun heq => absurd hop (by rw [heq]; decide)
    rw [quotable_cons hdouble htick]
    · exact ih hs
    · intro h
      obtain ⟨hc, hexpands⟩ := Bool.and_eq_true_iff.mp h
      rw [hc, hexpands] at hdollar
      exact Bool.false_ne_true hdollar.symm
    · rw [decide_eq_false hback]
      exact Bool.false_ne_true

theorem isBare_iff : isBare s = true ↔ s ≠ [] ∧ bareBytes s = true ∧
    s.head?.any (fun c => c = 35 || c = 126) = false ∧ isPattern (s.map (·, false)) = false := by
  simp only [isBare, Bool.and_eq_true, decide_eq_true_eq, Bool.not_eq_true', and_assoc]

/-- A text that loses no byte without quotes stands for itself. -/
theorem bare_of_lex (h : lex (.plain opened) s = some tokens) (hsize : (opened.getD []).length + s.length ≤ size tokens) :
    bareBytes s = true ∧ (opened = none → s.head?.any (fun c => c = 35 || c = 126) = false) := by
  induction s generalizing opened tokens with
  | nil => exact ⟨rfl, fun _ => rfl⟩
  | cons c s ih =>
    rw [List.length_cons] at hsize
    obtain ⟨out, mode', more, hstep, hmore, rfl⟩ := lex_cons_eq_some h
    have hle := lex_size hmore
    rw [size_append] at hsize
    simp only [step] at hstep
    split_ifs at hstep with hback hsingle hdouble hblank hinto hop hdollar hfirst
    · cases hstep
      -- The byte behind a backslash stands for itself, and the backslash is gone.
      cases s with
      | nil => cases hmore
      | cons d s =>
        obtain ⟨out, mode', more, hnext, hrest, rfl⟩ := lex_cons_eq_some hmore
        have hle := lex_size hrest
        simp only [step] at hnext
        split_ifs at hnext
        cases hnext
        simp [Mode.size] at hle hsize
        omega
    · cases hstep
      simp [Mode.size] at hle hsize
      omega
    · cases hstep
      simp [Mode.size] at hle hsize
      omega
    · cases hstep
      simp [Mode.size, size_words] at hle hsize
      omega
    · obtain ⟨rfl, hout⟩ := redirect_size hstep
      simp [Mode.size] at hle
      omega
    · cases hstep
      simp only [size_nil, Nat.zero_add] at hsize
      obtain ⟨hbare, -⟩ := ih hmore (by simp; omega)
      constructor
      · rw [bareBytes, hbare, decide_eq_false hback, decide_eq_false hsingle, decide_eq_false hdouble,
          Bool.eq_false_iff.mpr hblank, decide_eq_false hinto, Bool.eq_false_iff.mpr hop, Bool.eq_false_iff.mpr hdollar]
        rfl
      · intro hnone
        rw [hnone, Option.isNone_none, Bool.and_true] at hfirst
        exact Bool.eq_false_iff.mpr hfirst

end Lex

/-! ### The words and the redirections -/

def Command.size (c : Command) : Nat :=
  c.argv.flatten.length + (c.redirects.flatMap Redirect.target).length

section Collect
variable {word : Word} {s t : List Byte} {tokens front rest : List Token} {c : Command} {words : List (List Byte)}

theorem text_map (s : List Byte) (quoted : Bool) : Word.text (s.map (·, quoted)) = s := by
  rw [Word.text, List.map_map]
  exact List.map_id s

theorem isPattern_quoted (s : List Byte) : isPattern (s.map (·, true)) = false := by
  have hbracket : ∀ u : List Byte, bracket (u.map (·, true)) = false := by
    intro u
    cases u with
    | nil => rfl
    | cons c u =>
      rw [List.map_cons, bracket]
      intro rest heq
      cases heq
  rw [isPattern, Bool.or_eq_false_iff]
  constructor
  · simp
  · rw [List.any_eq_false]
    intro u hu
    obtain ⟨v, hv⟩ := (List.mem_tails _ _).mp hu
    have hdrop : u = (s.drop v.length).map (·, true) := by
      rw [List.map_drop, ← hv, List.drop_left]
    rw [hdrop, hbracket]
    exact Bool.false_ne_true

theorem collect_word (h : isPattern word = false) (tokens : List Token) :
    collect (.word word :: tokens) = (collect tokens).map fun c => ⟨word.text :: c.argv, c.redirects⟩ := by
  rw [collect, h, if_neg Bool.false_ne_true]

/-- No byte of a word is lost. -/
theorem collect_size (h : collect tokens = some c) : c.size = size tokens := by
  have hlength : ∀ word : Word, word.text.length = word.length := fun word => List.length_map _
  induction tokens using collect.induct generalizing c with
  | case1 =>
    cases h
    rfl
  | case2 word tokens hpattern =>
    rw [collect, if_pos hpattern] at h
    cases h
  | case3 word tokens hpattern ih =>
    rw [collect, if_neg hpattern] at h
    obtain ⟨d, hd, rfl⟩ := Option.map_eq_some_iff.mp h
    have hsize := ih hd
    simp only [Command.size, List.flatten_cons, List.length_append, size_cons, Token.size, hlength] at hsize ⊢
    omega
  | case4 fd => cases h
  | case5 fd fd' tokens => cases h
  | case6 fd word tokens ih =>
    rw [collect] at h
    obtain ⟨d, hd, rfl⟩ := Option.map_eq_some_iff.mp h
    have hsize := ih hd
    simp only [Command.size, List.flatMap_cons, List.length_append, size_cons, Token.size, hlength] at hsize ⊢
    omega

/-- Words with a word at their end are read on their own. -/
theorem collect_append (h : collect (front ++ .word word :: rest) = some c) :
    ∃ f r, collect (front ++ [.word word]) = some f ∧ collect rest = some r ∧
      c.argv = f.argv ++ r.argv ∧ c.redirects = f.redirects ++ r.redirects := by
  induction front using collect.induct generalizing c with
  | case1 =>
    rw [List.nil_append, collect] at h
    split at h
    · cases h
    · rename_i hpattern
      obtain ⟨r, hr, rfl⟩ := Option.map_eq_some_iff.mp h
      refine ⟨⟨[word.text], []⟩, r, ?_, hr, rfl, rfl⟩
      rw [List.nil_append, collect, if_neg hpattern]
      rfl
  | case2 first tokens hpattern =>
    rw [List.cons_append, collect, if_pos hpattern] at h
    cases h
  | case3 first tokens hpattern ih =>
    rw [List.cons_append, collect, if_neg hpattern] at h
    obtain ⟨d, hd, rfl⟩ := Option.map_eq_some_iff.mp h
    obtain ⟨f, r, hf, hr, hargv, hredirects⟩ := ih hd
    refine ⟨⟨first.text :: f.argv, f.redirects⟩, r, ?_, hr, congrArg (first.text :: ·) hargv, hredirects⟩
    rw [List.cons_append, collect, if_neg hpattern, hf]
    rfl
  | case4 fd =>
    rw [List.singleton_append, collect] at h
    obtain ⟨r, hr, rfl⟩ := Option.map_eq_some_iff.mp h
    exact ⟨⟨[], [⟨fd, word.text⟩]⟩, r, rfl, hr, rfl, rfl⟩
  | case5 fd fd' tokens => cases h
  | case6 fd target tokens ih =>
    rw [List.cons_append, List.cons_append, collect] at h
    obtain ⟨d, hd, rfl⟩ := Option.map_eq_some_iff.mp h
    obtain ⟨f, r, hf, hr, hargv, hredirects⟩ := ih hd
    refine ⟨⟨f.argv, ⟨fd, target.text⟩ :: f.redirects⟩, r, ?_, hr, hargv, congrArg (⟨fd, target.text⟩ :: ·) hredirects⟩
    rw [List.cons_append, List.cons_append, collect, hf]
    rfl

end Collect

/-! ### Lines with fixed words in front -/

/-- The words behind the first ones. -/
def arguments (s : List Byte) : Option Command := (lex (.plain none) s).bind collect

/-- Some words, with a blank behind each. -/
def lead (words : List (List Byte)) : List Byte := words.flatMap (· ++ [32])

section Arguments
variable {s t : List Byte} {rest : List Token} {c : Command} {name : List Byte} {words : List (List Byte)}

theorem lex_lead (h : ∀ word ∈ words, isBare word = true) (s : List Byte) :
    lex (.plain none) (lead words ++ s) =
      (lex (.plain none) s).map (words.map (fun word => Token.word (word.map (·, false))) ++ ·) := by
  induction words with
  | nil => exact (congrFun Option.map_id _).symm
  | cons word words ih =>
    obtain ⟨hne, hbare, hfirst, -⟩ := isBare_iff.mp (h word List.mem_cons_self)
    have hblank : step (.plain (some (word.map (·, false)))) 32 (lead words ++ s) =
        some ([.word (word.map (·, false))], .plain none) := rfl
    have hsplit : lead (word :: words) ++ s = word ++ 32 :: (lead words ++ s) := by simp [lead]
    rw [hsplit, lex_word hne hbare hfirst (Or.inr rfl), lex_cons, hblank, Option.bind_some,
      ih fun w hw => h w (List.mem_cons_of_mem _ hw), Option.map_map]
    rfl

theorem collect_words (h : ∀ word ∈ words, isBare word = true) (tokens : List Token) :
    collect (words.map (fun word => Token.word (word.map (·, false))) ++ tokens) =
      (collect tokens).map fun c => ⟨words ++ c.argv, c.redirects⟩ := by
  induction words with
  | nil => exact (congrFun Option.map_id _).symm
  | cons word words ih =>
    obtain ⟨-, -, -, hpattern⟩ := isBare_iff.mp (h word List.mem_cons_self)
    rw [List.map_cons, List.cons_append, collect_word hpattern, ih fun w hw => h w (List.mem_cons_of_mem _ hw),
      Option.map_map, text_map]
    rfl

/-- A command with fixed words at its beginning is one where the arguments behind them are. -/
theorem command_lead (h : ∀ word ∈ name :: words, isBare word = true)
    (hname : isCommandName (name.map (·, false)) = true) (s : List Byte) :
    command (lead (name :: words) ++ s) = (arguments s).map fun c => ⟨name :: words ++ c.argv, c.redirects⟩ := by
  rw [command, lex_lead h, arguments]
  cases lex (.plain none) s with
  | none => rfl
  | some tokens =>
    rw [Option.map_some, Option.bind_some, Option.bind_some, ← collect_words h]
    exact if_pos hname

/-- A text between double quotes comes through, and what stands behind it as it would alone. -/
theorem arguments_quoted {r : Command} (hrest : ∀ word, lex (.plain (some word)) t = some (.word word :: rest))
    (hr : collect rest = some r) (h : quotable s = true) :
    arguments (34 :: (s ++ 34 :: t)) = some ⟨s :: r.argv, r.redirects⟩ := by
  rw [arguments, lex_silent (c := 34) rfl, lex_quotable h, hrest, Option.bind_some, Option.getD_none,
    List.nil_append, collect_word (isPattern_quoted s), hr, text_map]
  rfl

/-- Only a text that comes through leaves as many bytes behind. -/
theorem arguments_front (hdouble : (34 : Byte) ∉ t) (hsingle : (39 : Byte) ∉ t)
    (hrest : ∀ word, lex (.plain (some word)) t = some (.word word :: rest))
    (h : arguments (34 :: (s ++ 34 :: t)) = some c) :
    ∃ f r : Command, collect rest = some r ∧ c.argv = f.argv ++ r.argv ∧ c.redirects = f.redirects ++ r.redirects ∧
      (s.length ≤ f.size → quotable s = true) := by
  obtain ⟨tokens, hlex, hcollect⟩ := Option.bind_eq_some_iff.mp h
  rw [lex_silent (c := 34) rfl] at hlex
  obtain ⟨front, word, rfl, -⟩ := lex_front hdouble hsingle hrest hlex
  obtain ⟨f, r, hf, hr, hargv, hredirects⟩ := collect_append hcollect
  refine ⟨f, r, hr, hargv, hredirects, fun hle => quotable_of_lex hdouble hsingle hrest hlex ?_⟩
  have hsize := collect_size hf
  simp only [size_append, size_cons, size_nil, Token.size, Option.getD_none, List.length_nil] at hsize ⊢
  omega

theorem arguments_escaped (s : List Byte) :
    arguments (34 :: (s.flatMap escapeByte ++ [34])) = if harmless s then some ⟨[s], []⟩ else none := by
  rw [arguments, lex_silent (c := 34) rfl, lex_escaped]
  split
  · have hend : lex (.plain (some (s.map (·, true)))) [] = some [.word (s.map (·, true))] := rfl
    rw [Option.getD_none, List.nil_append, hend, Option.bind_some, collect_word (isPattern_quoted s), text_map]
    rfl
  · rfl

/-- A text behind a double quote does not come through as a whole where nothing is left to close it. -/
theorem arguments_open {u : List Byte} (h : arguments (34 :: u) = some c) (hlen : u.length ≤ s.length) : c.argv ≠ [s] := by
  intro hargv
  obtain ⟨tokens, hlex, hcollect⟩ := Option.bind_eq_some_iff.mp h
  rw [lex_silent (c := 34) rfl] at hlex
  have hle := lex_double_size.1 hlex
  have hsize : s.length ≤ size tokens := by
    rw [← collect_size hcollect, Command.size, hargv]
    simp
  simp only [Option.getD_none, List.length_nil] at hle
  omega

/-- A bare word is an argument. -/
theorem arguments_bare (h : isBare s = true) : arguments s = some ⟨[s], []⟩ := by
  obtain ⟨hne, hbare, hfirst, hpattern⟩ := isBare_iff.mp h
  have hword := lex_word hne hbare hfirst (Or.inl rfl)
  have hend : lex (.plain (some (s.map (·, false)))) [] = some [.word (s.map (·, false))] := rfl
  rw [List.append_nil, hend] at hword
  rw [arguments, hword, Option.bind_some, collect_word hpattern, text_map]
  rfl

/-- A text without quotes is an argument only where it is a bare word. -/
theorem isBare_of_arguments (h : arguments s = some c) (hargv : c.argv = [s]) (hne : s ≠ []) : isBare s = true := by
  obtain ⟨tokens, hlex, hcollect⟩ := Option.bind_eq_some_iff.mp h
  have hsize : s.length ≤ size tokens := by
    rw [← collect_size hcollect, Command.size, hargv]
    simp
  obtain ⟨hbare, hfirst⟩ := bare_of_lex hlex (by simpa using hsize)
  have hword := lex_word hne hbare (hfirst rfl) (Or.inl rfl)
  have hend : lex (.plain (some (s.map (·, false)))) [] = some [.word (s.map (·, false))] := rfl
  rw [List.append_nil, hlex, hend] at hword
  cases hword
  refine isBare_iff.mpr ⟨hne, hbare, hfirst rfl, ?_⟩
  rw [collect] at hcollect
  split at hcollect
  · cases hcollect
  · rename_i hpattern
    exact Bool.eq_false_iff.mpr hpattern

end Arguments

/-! ### Lines of bare and of quoted words -/

/-- A text between single quotes; each of its own is put outside, behind a backslash. -/
def singleQuoted (s : List Byte) : List Byte :=
  39 :: (s.flatMap (fun c => if c = 39 then [39, 92, 39, 39] else [c]) ++ [39])

inductive Part
  | bare (s : List Byte)
  | quoted (s : List Byte)

namespace Part

def source : Part → List Byte
  | bare s => s
  | quoted s => singleQuoted s

def word : Part → Word
  | bare s => s.map (·, false)
  | quoted s => s.map (·, true)

def text : Part → List Byte
  | bare s | quoted s => s

def ok : Part → Bool
  | bare s => isBare s
  | quoted _ => true

end Part

section Parts
variable {s t : List Byte} {parts : List Part}

/-- Out of the quotes, a quote behind a backslash, and into the quotes again. -/
theorem lex_requote (word : Word) (s : List Byte) :
    lex (.single word) (39 :: 92 :: 39 :: 39 :: s) = lex (.single (word ++ [(39, true)])) s := by
  have hclose : step (.single word) 39 (92 :: 39 :: 39 :: s) = some ([], .plain (some word)) := rfl
  have hback : step (.plain (some word)) 92 (39 :: 39 :: s) = some ([], .escaped word) := rfl
  have hquote : step (.escaped word) 39 (39 :: s) = some ([], .plain (some (word ++ [(39, true)]))) := rfl
  have hopen : step (.plain (some (word ++ [(39, true)]))) 39 s = some ([], .single (word ++ [(39, true)])) := rfl
  rw [lex_silent hclose, lex_silent hback, lex_silent hquote, lex_silent hopen]

theorem lex_quotes (word : Word) (s t : List Byte) :
    lex (.single word) (s.flatMap (fun c => if c = 39 then [39, 92, 39, 39] else [c]) ++ 39 :: t) =
      lex (.plain (some (word ++ s.map (·, true)))) t := by
  induction s generalizing word with
  | nil =>
    have hclose : step (.single word) 39 t = some ([], .plain (some word)) := rfl
    rw [List.flatMap_nil, List.nil_append, List.map_nil, List.append_nil, lex_silent hclose]
  | cons c s ih =>
    rw [List.flatMap_cons, List.append_assoc, List.map_cons, List.append_cons word]
    by_cases hc : c = 39
    · rw [if_pos hc, hc]
      exact (lex_requote word _).trans (ih _)
    · have hstep : step (.single word) c (s.flatMap (fun c => if c = 39 then [39, 92, 39, 39] else [c]) ++ 39 :: t) =
          some ([], .single (word ++ [(c, true)])) := if_neg hc
      rw [if_neg hc]
      exact (lex_silent hstep).trans (ih _)

/-- A word of either kind, in front of a blank or of the end. -/
theorem lex_part {p : Part} (hok : p.ok = true) (ht : t = [] ∨ t.head? = some 32) :
    lex (.plain none) (p.source ++ t) = lex (.plain (some p.word)) t := by
  cases p with
  | bare s =>
    obtain ⟨hne, hbare, hfirst, -⟩ := isBare_iff.mp hok
    exact lex_word hne hbare hfirst ht
  | quoted s =>
    have hopen : step (.plain none) 39 (s.flatMap (fun c => if c = 39 then [39, 92, 39, 39] else [c]) ++ [39] ++ t) =
        some ([], .single []) := rfl
    rw [Part.source, singleQuoted, List.cons_append, lex_silent hopen, List.append_assoc]
    exact lex_quotes [] s t

theorem head_parts (parts : List Part) :
    (parts.flatMap fun p => 32 :: p.source) = [] ∨ (parts.flatMap fun p => 32 :: p.source).head? = some 32 := by
  cases parts with
  | nil => exact .inl rfl
  | cons p parts => exact .inr rfl

/-- The words of a line, with a blank in front of each but the first. -/
theorem lex_parts (hok : ∀ p ∈ parts, p.ok = true) (word : Word) :
    lex (.plain (some word)) (parts.flatMap fun p => 32 :: p.source) =
      some (.word word :: parts.map fun p => .word p.word) := by
  induction parts generalizing word with
  | nil => rfl
  | cons p parts ih =>
    have hblank : step (.plain (some word)) 32 (p.source ++ parts.flatMap fun p => 32 :: p.source) =
        some ([.word word], .plain none) := rfl
    rw [List.flatMap_cons, List.cons_append, lex_cons, hblank, Option.bind_some,
      lex_part (hok p List.mem_cons_self) (head_parts parts), ih fun q hq => hok q (List.mem_cons_of_mem p hq)]
    rfl

theorem collect_parts (hok : ∀ p ∈ parts, p.ok = true) :
    collect (parts.map fun p => .word p.word) = some ⟨parts.map Part.text, []⟩ := by
  induction parts with
  | nil => rfl
  | cons p parts ih =>
    have hpattern : isPattern p.word = false := by
      have hp := hok p List.mem_cons_self
      cases p with
      | bare s => exact (isBare_iff.mp hp).2.2.2
      | quoted s => exact isPattern_quoted s
    have htext : p.word.text = p.text := by
      cases p with
      | bare s | quoted s => exact text_map s _
    rw [List.map_cons, collect_word hpattern, ih fun q hq => hok q (List.mem_cons_of_mem p hq), htext]
    rfl

/-- **A line of bare and of quoted words is the command with just these arguments.** -/
theorem command_parts {name : List Byte} (hname : isBare name = true)
    (hcommand : isCommandName (name.map (·, false)) = true) (hok : ∀ p ∈ parts, p.ok = true) :
    command (name ++ parts.flatMap fun p => 32 :: p.source) = some ⟨name :: parts.map Part.text, []⟩ := by
  obtain ⟨hne, hbare, hfirst, hpattern⟩ := isBare_iff.mp hname
  rw [command, lex_word hne hbare hfirst (head_parts parts), lex_parts hok, Option.bind_some]
  refine (if_pos hcommand).trans ?_
  rw [collect_word hpattern, collect_parts hok, text_map]
  rfl

end Parts

end Thingino.Lib.CommandLine
