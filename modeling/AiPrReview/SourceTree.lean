import AiPrReview.PyText
import AiPrReview.Table
import Mathlib.Data.List.Sort

/-! An extracted source tree: its paths, and what reading one of its files gives. -/

namespace AiPrReview

/-! UTF-8, decoded strictly. -/

/-- `need` bytes of the character with the bits `code` are still to come, the
next one between `low` and `high`. -/
def decodeFrom : Nat → Nat → Nat → Nat → List UInt8 → Option Text
  | need, _, _, _, [] => if need = 0 then some [] else none
  | 0, _, _, _, byte :: rest =>
    let b := byte.toNat
    if b < 0x80 then (Char.ofNat b :: ·) <$> decodeFrom 0 0 0 0 rest
    else if b < 0xC2 then none
    else if b < 0xE0 then decodeFrom 1 (b - 0xC0) 0x80 0xBF rest
    else if b < 0xF0 then
      decodeFrom 2 (b - 0xE0) (if b = 0xE0 then 0xA0 else 0x80) (if b = 0xED then 0x9F else 0xBF) rest
    else if b < 0xF5 then
      decodeFrom 3 (b - 0xF0) (if b = 0xF0 then 0x90 else 0x80) (if b = 0xF4 then 0x8F else 0xBF) rest
    else none
  | need + 1, code, low, high, byte :: rest =>
    let b := byte.toNat
    if low ≤ b && b ≤ high then
      let code := code * 64 + (b - 0x80)
      if need = 0 then (Char.ofNat code :: ·) <$> decodeFrom 0 0 0 0 rest
      else decodeFrom need code 0x80 0xBF rest
    else none

def decodeUtf8 (bytes : List UInt8) : Option Text := decodeFrom 0 0 0 0 bytes

def universalNewlines : Text → Text
  | [] => []
  | '\r' :: '\n' :: rest => '\n' :: universalNewlines rest
  | c :: rest => (if c = '\r' then '\n' else c) :: universalNewlines rest

/-! A relative path is its POSIX spelling. -/

def pathParts (path : Text) : List Text := path.splitOn '/'

def pathName (path : Text) : Text := (pathParts path).getLastD []

/-- `PurePath.suffix`: from the last dot, unless the name starts or ends with it. -/
def pathSuffix (path : Text) : Text :=
  let name := (pathName path).reverse
  let extension := name.takeWhile (· != '.')
  match name.dropWhile (· != '.') with
  | '.' :: _ :: _ => if extension = [] then [] else '.' :: extension.reverse
  | _ => []

/-- A regular file; `stat` and `read` raise an `OSError` on one that is unreadable. -/
inductive SourceFile : Type where
  | bytes (data : List UInt8)
  | unreadable
  deriving DecidableEq

def SourceFile.statSize : SourceFile → Option Nat
  | .bytes data => some data.length
  | .unreadable => none

def SourceFile.readText : SourceFile → Option Text
  | .bytes data => (decodeUtf8 data).map universalNewlines
  | .unreadable => none

abbrev SourceTree : Type := Table (Prod.fst : Text × SourceFile → Text)

namespace SourceTree

/-- The files of `sorted(root.rglob("*"))`: paths are compared part by part. -/
def sorted (t : SourceTree) : List (Text × SourceFile) :=
  t.rows.insertionSort fun a b => pathParts a.1 ≤ pathParts b.1

theorem mem_sorted {t : SourceTree} {f : Text × SourceFile} : f ∈ t.sorted ↔ t.get f.1 = some f := by
  rw [← Table.mem_rows_iff]
  exact (List.perm_insertionSort _ t.rows).mem_iff

theorem sorted_nodup (t : SourceTree) : (t.sorted.map Prod.fst).Nodup :=
  ((List.perm_insertionSort _ t.rows).map Prod.fst).nodup_iff.mpr t.keys_nodup

end SourceTree

example : pathSuffix "src/a.tar.gz".toList = ".gz".toList := by decide +kernel

example : decodeUtf8 [0xC2, 0xAB] = some ['«'] := by decide +kernel

end AiPrReview
