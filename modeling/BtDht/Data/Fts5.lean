/-!
# BtDht.Data.Fts5

How FTS5 uses the tokens a tokenizer hands to `xToken`.  A token without
`FTS5_TOKEN_COLOCATED` starts a new position and a colocated one joins the
position before it.  A phrase matches a document when, at consecutive document
positions, each of its positions has a term in common with the document's.

`matches_map_iff` is the rule for tokenizers that give one position to each
character: if sharing a term means `R` on characters, then matching means
finding the phrase in the text up to `R`.
-/

namespace BtDht.Fts5

/-- One call of `xToken`. -/
structure Token where
  tflags : Nat
  token : List UInt8
  iStart : Nat
  iEnd : Nat
  deriving DecidableEq, Repr

/-- `FTS5_TOKEN_COLOCATED` -/
def tokenColocated : Nat := 0x0001

def Token.colocated (t : Token) : Bool := t.tflags &&& tokenColocated ≠ 0

/-- The terms that join whatever position comes before the tokens, and the
positions that the tokens start. -/
def split : List Token → List (List UInt8) × List (List (List UInt8))
  | [] => ([], [])
  | t :: ts =>
      if t.colocated then (t.token :: (split ts).1, (split ts).2)
      else ([], (t.token :: (split ts).1) :: (split ts).2)

/-- The terms of each position.  The first token starts one in any case. -/
def positions (tokens : List Token) : List (List (List UInt8)) :=
  match split tokens with
  | ([], positions) => positions
  | (joining, positions) => joining :: positions

/-- The phrase is found in the document. -/
def PhraseMatches (phrase document : List Token) : Prop :=
  ∃ i, ∀ j (hj : j < (positions phrase).length), ∃ hij : i + j < (positions document).length,
    ∃ term, term ∈ (positions phrase)[j] ∧ term ∈ (positions document)[i + j]

/-- When positions are characters and sharing a term means `R`, a phrase
matches where its characters are found up to `R`. -/
theorem matches_map_iff {α : Type} {terms : α → List (List UInt8)} {R : α → α → Prop}
    (hR : ∀ a b, (∃ term, term ∈ terms a ∧ term ∈ terms b) ↔ R a b)
    {phrase document : List Token} {q d : List α} (hq : positions phrase = q.map terms)
    (hd : positions document = d.map terms) :
    PhraseMatches phrase document ↔
      ∃ i, ∀ j (hj : j < q.length), ∃ hij : i + j < d.length, R q[j] d[i + j] := by
  simp only [PhraseMatches, hq, hd, List.length_map, List.getElem_map, hR]

end BtDht.Fts5
