import Mathlib.Data.List.Basic

/-! Backtracking regular expressions, as far as a search asks: can the pattern
match somewhere. -/

namespace AiPrReview

inductive Regex : Type where
  | char (p : Char → Bool)
  | start
  | boundary
  | seq (r s : Regex)
  | alt (r s : Regex)
  | rep (r : Regex) (least most : Nat)
  | star (r : Regex)

structure Cursor : Type where
  before : Option Char
  after : List Char

namespace Regex

def rounds (f : Cursor → List Cursor) : Nat → Nat → Cursor → List Cursor
  | least, 0, cur => if least = 0 then [cur] else []
  | least, n + 1, cur =>
    (f cur).flatMap (rounds f (least - 1) n) ++ if least = 0 then [cur] else []

/-- The places a match that starts at a cursor can end at. -/
def ends (isWord : Char → Bool) : Regex → Cursor → List Cursor
  | char p, cur =>
    match cur.after with
    | [] => []
    | c :: rest => if p c then [⟨some c, rest⟩] else []
  | start, cur => if cur.before = none then [cur] else []
  | boundary, cur => if cur.before.any isWord != cur.after.head?.any isWord then [cur] else []
  | seq r s, cur => (ends isWord r cur).flatMap (ends isWord s)
  | alt r s, cur => ends isWord r cur ++ ends isWord s cur
  | rep r least most, cur => rounds (ends isWord r) least most cur
  -- a round that consumes nothing adds no place, so the length bounds the rounds
  | star r, cur => rounds (ends isWord r) 0 cur.after.length cur

def foundFrom (isWord : Char → Bool) (r : Regex) : Option Char → List Char → Bool
  | before, [] => !(r.ends isWord ⟨before, []⟩).isEmpty
  | before, c :: rest =>
    !(r.ends isWord ⟨before, c :: rest⟩).isEmpty || foundFrom isWord r (some c) rest

/-- `re.search(r, text) is not None`. -/
def found (isWord : Char → Bool) (r : Regex) (text : List Char) : Bool := r.foundFrom isWord none text

def seqs (rs : List Regex) : Regex := rs.foldr seq (rep (char fun _ => true) 0 0)

def alts : Regex → List Regex → Regex
  | r, [] => r
  | r, s :: rs => alt r (alts s rs)

end Regex

end AiPrReview
