import QuantumFs.Client.CopyNames
import QuantumFs.Lib.Double
import QuantumFs.Lib.Utf

/-! The names that the web view accepts and makes up (`lib/path.ts`), on strings of code units. -/
namespace QuantumFs.Client.Path

open Lib

abbrev Units : Type := List UInt16

def units (text : String) : Units := Text.utf16 text.toList

/-- A capital sigma has two small letters, and which one it gets depends on what is around it. -/
def oneSigma (c : Char) : Char := if c = 'ς' then 'σ' else c

/-- `toLowerCase`, which is `to_lowercase` on the other encoding: both take one character after the
other, but for the capital sigma. -/
class UnicodeLowercase extends Lowercase where
  lowerUnits : Units → Units
  mapping : Char → Text
  lowerUnits_units : ∀ name : String, lowerUnits (units name) = units (lower name)
  lower_mapping : ∀ name : String,
    (lower name).toList.map oneSigma = (name.toList.flatMap mapping).map oneSigma
  mapping_ascii : ∀ c : Char, c.toNat < 128 → mapping c = [c.toLower]
  mapping_kelvin : mapping '\u212a' = ['k']
  mapping_other : ∀ c : Char, 128 ≤ c.toNat → c ≠ '\u212a' →
    ∃ front last, mapping c = front ++ [last] ∧ 128 ≤ last.toNat

export UnicodeLowercase (lowerUnits)

/-- What `trim` takes away and `\s` matches: white space and the ends of lines. -/
def space (n : Nat) : Bool :=
  (9 ≤ n && n ≤ 13) || (0x2000 ≤ n && n ≤ 0x200A) ||
    [0x20, 0xA0, 0x1680, 0x2028, 0x2029, 0x202F, 0x205F, 0x3000, 0xFEFF].contains n

/-- What `.` does not match. -/
def lineTerminator (n : Nat) : Bool := [0x0A, 0x0D, 0x2028, 0x2029].contains n

def trim (name : Units) : Units :=
  ((name.dropWhile fun unit => space unit.toNat).reverse.dropWhile fun unit => space unit.toNat).reverse

def lastIndexOf (unit : UInt16) (name : Units) : Option Nat :=
  (name.reverse.idxOf? unit).map fun back => name.length - 1 - back

def illegalNameChars : List Char := ['/', ':', '\\']

def validateName (name : Units) : Option String :=
  if (trim name).length = 0 then some "Name can't be empty"
  else if illegalNameChars.any fun illegal => name.contains (UInt16.ofNat illegal.toNat) then some "Names can't contain / : or \\"
  else if maxNameLength < name.length then some "Name is too long"
  else none

def splitName [UnicodeLowercase] (name : Units) : Units × Units :=
  let lower := lowerUnits name
  match compoundExtensions.find? fun compound =>
      0 < (name.length : Int) - (units compound).length - 1 && (units ("." ++ compound)).isSuffixOf lower with
  | some compound =>
    let cut := name.length - (units compound).length - 1
    (name.take cut, name.drop (cut + 1))
  | none =>
    match lastIndexOf (UInt16.ofNat '.'.toNat) name with
    | some dot => if dot = 0 ∨ dot = name.length - 1 then (name, []) else (name.take dot, name.drop (dot + 1))
    | none => (name, [])

def joinName (base ext : Units) : Units := if ext = [] then base else base ++ units "." ++ ext

theorem space_apart : ∀ n, 48 ≤ n → n ≤ 122 → space n = false := by
  intro n low high
  unfold space
  simp only [Bool.or_eq_false_iff, Bool.and_eq_false_iff, decide_eq_false_iff_not, List.contains_eq_mem,
    List.mem_cons, List.not_mem_nil, or_false]
  omega

/-- What `\s`, `\d` and the letters of `copy` match, on whatever has a number. -/
def pathSyntax {α : Type} (number : α → Nat) : CopySyntax α := copySyntax number space space_apart

section

variable {α : Type} (s : CopySyntax α) (dot : α → Bool)

/-- `$` -/
def atEnd (stem : List α) (digits : Option (List α)) (rest : List α) : Option (List α × Option (List α)) :=
  if rest.isEmpty then some (stem, digits) else none

/-- `(?:\s+(\d+))?$` -/
def number (stem rest : List α) : Option (List α × Option (List α)) :=
  (Pattern.greedily s.space (fun _ rest =>
    Pattern.greedily s.digit (fun digits rest => atEnd stem (some digits) rest) rest) rest).or (atEnd stem none rest)

/-- `\s+copy` and what follows it. -/
def afterStem (stem rest : List α) : Option (List α × Option (List α)) :=
  Pattern.greedily s.space (fun _ rest => Pattern.word s.letters (fun _ rest => number s stem rest) rest) rest

/-- `/^(.*?)\s+copy(?:\s+(\d+))?$/i`, with what its two groups capture. -/
def copySuffix (base : List α) : Option (List α × Option (List α)) := Pattern.lazily dot (afterStem s) base

end

def copySuffixUnits (base : Units) : Option (Units × Option Units) :=
  copySuffix (pathSyntax UInt16.toNat) (fun unit => !lineTerminator unit.toNat) base

/-- `Number` of decimal digits. -/
def toNumber (digits : Units) : Double :=
  Double.ofNat (digits.foldl (fun value unit => value * 10 + (unit.toNat - 48)) 0)

def copyName (root ext : Units) (n : Double) : Units :=
  joinName (if n = some 1 then root ++ units " copy" else root ++ units " copy " ++ Text.utf16 (Double.toText n)) ext

section

variable [UnicodeLowercase]

def taken (existing : List Units) (name : Units) : Bool :=
  existing.any fun other => lowerUnits other = lowerUnits name

/-- The loop has no bound of its own: it returns when some number of rounds is enough. -/
def uniqueNameLoop (existing : List Units) (root ext : Units) : Nat → Double → Option Units
  | 0, _ => none
  | rounds + 1, n =>
    let n := n.succ
    if taken existing (copyName root ext n) then uniqueNameLoop existing root ext rounds n
    else some (copyName root ext n)

def uniqueName (rounds : Nat) (existing : List Units) (desired : Units) : Option Units :=
  if taken existing desired then
    let (base, ext) := splitName desired
    let (root, n) := match copySuffixUnits base with
      | some (root, digits) => (root, (digits.map toNumber).getD (some 1))
      | none => (base, some 0)
    uniqueNameLoop existing root ext rounds n
  else some desired

end

end QuantumFs.Client.Path
