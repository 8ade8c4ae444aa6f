/-
  The statements of a text as they stand in it.

  A `Phrase` is a statement without what ends it: tokens in which parentheses are balanced and no
  token outside them is a semicolon or a brace.  A `Body` is a sequence of statements, each ended by
  a semicolon or followed by a body of its own in braces.  All of them say where their tokens begin.

  The `Anatomy` of a text is a body that is made of exactly the tokens of the text.  A statement is
  disabled if it has a disabling modifier in front and does not stand in the body of one that is;
  `disabled` lists these with the place of their last character, `kept` all that are neither
  disabled nor inside one that is.
-/
import SolidExport.Proofs.Anatomy.Piece

namespace SolidExport

/-- `IsEnd k` — whether the chunk `k` ends a statement or a body where it stands outside
    parentheses: a semicolon or a brace.  Inside a string these are not glyphs and end nothing. -/
def Chunk.IsEnd : Chunk → Prop
  | .glyph c _ => c = ';' ∨ c = '\x7b' ∨ c = '\x7d'
  | .string _ => False

theorem Chunk.chars_ne_nil (k : Chunk) : k.chars ≠ [] := by
  cases k with
  | glyph c hc => exact List.cons_ne_nil _ _
  | string marks => exact List.cons_ne_nil _ _

namespace Anatomy

open Source (lineEnds)

/-! ## Phrases -/

/-- `IsBegun chunks` — the chunks of one statement as far as it was read: no parenthesis is closed
    before it is opened, and none of the chunks outside parentheses ends the statement. -/
structure IsBegun (chunks : List Chunk) : Prop where
  nonneg : ∀ front, front <+: chunks → 0 ≤ Chunk.depth front
  inner : ∀ front k, front ++ [k] <+: chunks → Chunk.depth front = 0 → ¬k.IsEnd

theorem isBegun_nil : IsBegun [] := by
  refine ⟨fun front hfront => ?_, fun front k hfront => ?_⟩
  · rw [List.prefix_nil.mp hfront]
    exact Int.le_refl 0
  · exact absurd (List.prefix_nil.mp hfront) (by simp)

theorem depth_cons (k : Chunk) (chunks : List Chunk) :
    Chunk.depth (k :: chunks) = k.rise + Chunk.depth chunks := by
  simp [Chunk.depth]

theorem depth_append (chunks : List Chunk) (k : Chunk) :
    Chunk.depth (chunks ++ [k]) = Chunk.depth chunks + k.rise := by
  simp [Chunk.depth]

/-- A statement that is begun goes on with one more chunk, unless that closes a parenthesis too many
    or ends the statement. -/
theorem IsBegun.append {chunks : List Chunk} (h : IsBegun chunks) {k : Chunk}
    (hdepth : 0 ≤ Chunk.depth chunks + k.rise) (hinner : Chunk.depth chunks = 0 → ¬k.IsEnd) :
    IsBegun (chunks ++ [k]) := by
  refine ⟨fun front hfront => ?_, fun front j hfront hzero => ?_⟩
  · rcases List.prefix_concat_iff.mp hfront with rfl | hfront
    · rwa [depth_append]
    · exact h.nonneg front hfront
  · rcases List.prefix_concat_iff.mp hfront with heq | hfront
    · obtain ⟨rfl, hj⟩ := List.append_inj' heq rfl
      obtain ⟨rfl, -⟩ := List.cons.inj hj
      exact hinner hzero
    · exact h.inner front j hfront hzero

/-- A statement without the semicolon or the brace that ends it: at least one token, and every
    parenthesis closed again. -/
structure Phrase where
  tokens : List Token
  nonempty : tokens ≠ []
  begun : IsBegun (tokens.map Token.chunk)
  closed : Chunk.depth (tokens.map Token.chunk) = 0

/-- `tokenChars ts` — the characters of the tokens `ts` in a row, which is what remains of their
    text without white space and comments. -/
def tokenChars (ts : List Token) : List Char := ts.flatMap (·.chunk.chars)

theorem tokenChars_cons (t : Token) (ts : List Token) :
    tokenChars (t :: ts) = t.chunk.chars ++ tokenChars ts := List.flatMap_cons

theorem eq_nil_of_tokenChars {ts : List Token} (h : tokenChars ts = []) : ts = [] := by
  cases ts with
  | nil => rfl
  | cons t ts =>
    rw [tokenChars_cons] at h
    exact absurd (List.append_eq_nil_iff.mp h).1 t.chunk.chars_ne_nil

namespace Phrase

/-- `start p` — the place where the first character of the statement `p` stands, on whose line the
    statement is. -/
def start (p : Phrase) : Nat := (p.tokens.head p.nonempty).start

theorem start_eq {p : Phrase} {t : Token} {ts : List Token} (h : p.tokens = t :: ts) :
    p.start = t.start := by
  simp only [start, h, List.head_cons]

/-- `chars p` — the statement `p` with its modifiers, without white space and comments. -/
def chars (p : Phrase) : List Char := tokenChars p.tokens

/-- `signature p` — the statement `p` without the modifiers in front.  This is the text that is
    recorded of it. -/
def signature (p : Phrase) : String := String.ofList (p.chars.dropWhile Scanner.isModifier)

/-- `isDisabled p` — whether one of the modifiers in front of the statement `p` disables it.  Then
    it is dropped together with its body. -/
def isDisabled (p : Phrase) : Bool := (p.chars.takeWhile Scanner.isModifier).any Scanner.disables

/-- `p.move f` — the statement `p` in another text, where `f` says for each place of the first where
    it is in the second. -/
def move (f : Nat → Nat) (p : Phrase) : Phrase :=
  have hchunks : (p.tokens.map (Token.move f)).map Token.chunk = p.tokens.map Token.chunk := by
    rw [List.map_map]
    rfl
  ⟨p.tokens.map (Token.move f), fun h => p.nonempty (List.map_eq_nil_iff.mp h),
    hchunks ▸ p.begun, hchunks ▸ p.closed⟩

end Phrase

/-! ## Bodies -/

namespace Token

def semicolon (place : Nat) : Token := ⟨.glyph ';' (by decide), place⟩

def openBrace (place : Nat) : Token := ⟨.glyph '\x7b' (by decide), place⟩

def closeBrace (place : Nat) : Token := ⟨.glyph '\x7d' (by decide), place⟩

end Token

/-- Statements in a row, with the places of what ends them.  A statement has a semicolon behind it
    or a body in braces, and a semicolon may also end nothing. -/
inductive Body where
  | done
  | semicolon (place : Nat) (rest : Body)
  | leaf (phrase : Phrase) (semicolon : Nat) (rest : Body)
  | block (phrase : Phrase) (opening : Nat) (inner : Body) (closing : Nat) (rest : Body)

/-- A statement in a body, and the number of bodies that it stands in. -/
structure Occurrence where
  phrase : Phrase
  level : Nat

/-- `o.statement line` — the record of the statement `o`, if `line` gives the line of each place:
    its signature, its level, and the line of its first character. -/
def Occurrence.statement (line : Nat → Nat) (o : Occurrence) : Statement :=
  ⟨o.phrase.signature, o.level, line o.phrase.start⟩

/-- A statement and the place of its last character, be it a semicolon or the end of its body. -/
structure Extent where
  phrase : Phrase
  last : Nat

/-- `e.warning line` — the warning that the disabled statement `e` gives, if `line` gives the line
    of each place. -/
def Extent.warning (line : Nat → Nat) (e : Extent) : Warning :=
  .disabledStatement (line e.phrase.start) e.phrase.signature

namespace Body

def tokens : Body → List Token
  | .done => []
  | .semicolon place rest => .semicolon place :: rest.tokens
  | .leaf phrase place rest => phrase.tokens ++ .semicolon place :: rest.tokens
  | .block phrase opening inner closing rest =>
    phrase.tokens ++ .openBrace opening :: (inner.tokens ++ .closeBrace closing :: rest.tokens)

def append : Body → Body → Body
  | .done, b => b
  | .semicolon place rest, b => .semicolon place (rest.append b)
  | .leaf phrase place rest, b => .leaf phrase place (rest.append b)
  | .block phrase opening inner closing rest, b =>
    .block phrase opening inner closing (rest.append b)

theorem tokens_append (a b : Body) : (a.append b).tokens = a.tokens ++ b.tokens := by
  induction a with
  | done => rfl
  | semicolon place rest ih => simp [append, tokens, ih]
  | leaf phrase place rest ih => simp [append, tokens, ih]
  | block phrase opening inner closing rest _ ih => simp [append, tokens, ih]

/-- `b.move f` — the body `b` in another text, where `f` says for each place of the first where it
    is in the second. -/
def move (f : Nat → Nat) : Body → Body
  | .done => .done
  | .semicolon place rest => .semicolon (f place) (rest.move f)
  | .leaf phrase place rest => .leaf (phrase.move f) (f place) (rest.move f)
  | .block phrase opening inner closing rest =>
    .block (phrase.move f) (f opening) (inner.move f) (f closing) (rest.move f)

theorem tokens_move (f : Nat → Nat) (b : Body) :
    (b.move f).tokens = b.tokens.map (Token.move f) := by
  induction b with
  | done => rfl
  | semicolon place rest ih =>
    rw [move, tokens, tokens, ih]
    rfl
  | leaf phrase place rest ih =>
    rw [move, tokens, tokens, ih, List.map_append]
    rfl
  | block phrase opening inner closing rest ihInner ih =>
    rw [move, tokens, tokens, ihInner, ih, List.map_append, List.map_cons, List.map_append]
    rfl

/-- `kept level b` — the statements of the body `b` that are neither disabled themselves nor in one
    that is, in the order of the text, if the body itself stands `level` bodies deep. -/
def kept (level : Nat) : Body → List Occurrence
  | .done => []
  | .semicolon _ rest => rest.kept level
  | .leaf phrase _ rest =>
    (if phrase.isDisabled then [] else [⟨phrase, level⟩]) ++ rest.kept level
  | .block phrase _ inner _ rest =>
    (if phrase.isDisabled then [] else ⟨phrase, level⟩ :: inner.kept (level + 1)) ++ rest.kept level

/-- `disabled b` — the disabled statements of the body `b`.  What stands in one of them is dropped
    with it and gives no warning of its own. -/
def disabled : Body → List Extent
  | .done => []
  | .semicolon _ rest => rest.disabled
  | .leaf phrase place rest =>
    (if phrase.isDisabled then [⟨phrase, place⟩] else []) ++ rest.disabled
  | .block phrase _ inner closing rest =>
    (if phrase.isDisabled then [⟨phrase, closing⟩] else inner.disabled) ++ rest.disabled

end Body

/-- `lineAt text place` — the line of a place in a text: one more than the line ends in front of
    it. -/
def lineAt (text : List Char) (place : Nat) : Nat := 1 + lineEnds (text.take place)

end Anatomy

/-- The statements of a text as they stand in it: pieces that make up the whole text, and a body
    that is made of exactly the tokens of these pieces.  A text has an anatomy exactly if it can be
    scanned. -/
structure Anatomy (text : List Char) where
  pieces : List Anatomy.Piece
  body : Anatomy.Body
  cut : Anatomy.Cut pieces text []
  tokens_eq : body.tokens = Anatomy.tokens 0 pieces

namespace Anatomy

variable {text : List Char}

/-- `a.kept` — the statements of a text that are neither disabled themselves nor in one that is, the
    outermost at level zero. -/
def kept (a : Anatomy text) : List Occurrence := a.body.kept 0

/-- `a.disabled` — the disabled statements of a text, those inside other disabled ones left out. -/
def disabled (a : Anatomy text) : List Extent := a.body.disabled

end Anatomy

end SolidExport
