import QuantumFs.Client.Projection
import QuantumFs.Lib.Machine
import QuantumFs.Protocol

/-! Files opened in other programs (`node/vault.rs`): the copies under `open/`, the
registry of those that are watched, and the write back of an edit. A step is what the task
does between two points where it waits or where another program can come in between. -/
namespace QuantumFs.Client

open Lib

/-- The body a chunk id stands for; ids are hashes of what they name. -/
class ChunkBodies where
  body : ChunkId → Bytes

/-- What the file system compares names by. -/
class FileNames where
  key : String → String

def content [ChunkBodies] (manifest : Manifest) : Bytes := manifest.chunkIds.flatMap ChunkBodies.body

def versionFile : String := "version.json"

def writeVersion (version : U64) : Bytes :=
  (Text.decimal version.val).map fun c => UInt8.ofNat c.toNat

def isJsonBlank (c : Char) : Bool := c = ' ' || c = '\n' || c = '\t' || c = '\r'

def readVersion (bytes : Bytes) : Option U64 :=
  let text := ((bytes.map fun b => Char.ofNat b.toNat).dropWhile isJsonBlank).rdropWhile isJsonBlank
  match Text.parseU64 text with
  | some value =>
    if fits : value < 2 ^ 64 then if Text.decimal value = text then some ⟨value, fits⟩ else none else none
  | none => none

theorem char_of_digit {c : Char} (digit : c.isDigit = true) :
    Char.ofNat (UInt8.ofNat c.toNat).toNat = c := by
  have small : c.toNat < 256 := by
    simp only [Char.isDigit, Bool.and_eq_true, decide_eq_true_eq] at digit
    have := UInt32.le_iff_toNat_le.mp digit.2
    exact Nat.lt_of_le_of_lt this (by decide)
  rw [UInt8.toNat_ofNat', Nat.mod_eq_of_lt small]
  exact Char.ofNat_toNat c

theorem isJsonBlank_of_digit {c : Char} (digit : c.isDigit = true) : isJsonBlank c = false := by
  have blank : ∀ d, d.isDigit = false → c ≠ d := fun d other same => by
    rw [same, other] at digit
    cases digit
  simp only [isJsonBlank, blank ' ' (by decide), blank '\n' (by decide), blank '\t' (by decide),
    blank '\r' (by decide), decide_false, Bool.or_false]

theorem readVersion_writeVersion (version : U64) : readVersion (writeVersion version) = some version := by
  have digits : ∀ c ∈ Text.decimal version.val, isJsonBlank c = false := fun c mem =>
    isJsonBlank_of_digit (Text.isDigit_of_mem_decimal mem)
  have chars : (writeVersion version).map (fun b => Char.ofNat b.toNat) = Text.decimal version.val := by
    unfold writeVersion
    rw [List.map_map]
    conv => rhs; rw [← List.map_id (Text.decimal version.val)]
    exact List.map_congr_left fun c mem => char_of_digit (Text.isDigit_of_mem_decimal mem)
  have left : (Text.decimal version.val).dropWhile isJsonBlank = Text.decimal version.val := by
    cases same : Text.decimal version.val with
    | nil => rfl
    | cons c rest =>
      rw [List.dropWhile_cons, digits c (same ▸ List.mem_cons_self)]
      rfl
  have right : (Text.decimal version.val).rdropWhile isJsonBlank = Text.decimal version.val := by
    rw [List.rdropWhile_eq_self_iff]
    intro some
    rw [digits _ (List.getLast_mem some)]
    exact Bool.false_ne_true
  unfold readVersion
  dsimp only
  rw [chars, left, right, Text.parseU64_decimal, if_pos version.isLt]
  simp only [version.isLt, ↓reduceDIte, ↓reduceIte, Fin.eta]

abbrev Facts := Nat × Nat

structure Copy where
  bytes : Bytes
  mtime : Nat
deriving DecidableEq

def Copy.facts (copy : Copy) : Facts := (copy.bytes.length, copy.mtime)

/-- A file in `open/<node id>`. -/
structure CopyPath where
  folder : FileId
  name : String
deriving DecidableEq

def stagedPath [FileNames] (nodeId : FileId) (name : String) : CopyPath := ⟨nodeId, FileNames.key name⟩

def indexPath [FileNames] (nodeId : FileId) : CopyPath := stagedPath nodeId versionFile

structure OpenFile where
  nodeId : FileId
  path : CopyPath
  len : Nat
  mtime : Nat
  changedAt : Option Nat
deriving DecidableEq

def OpenFile.facts (watched : OpenFile) : Facts := (watched.len, watched.mtime)

inductive Outcome where
  | done (mtime : Nat)
  | failed (left : Option Copy)

def Outcome.copy (bytes : Bytes) : Outcome → Option Copy
  | .done mtime => some ⟨bytes, mtime⟩
  | .failed left => left

inductive Activity where
  | idle
  | pulling (nodeId : FileId) (name : String) (trusted : Manifest)
  | checking (nodeId : FileId) (name : String) (assembled : Bytes) (version : U64)
  | writing (nodeId : FileId) (name : String) (assembled : Bytes) (version : U64)
  | indexing (nodeId : FileId) (name : String) (version : U64)
  | statting (nodeId : FileId) (name : String)
  | registering (nodeId : FileId) (name : String) (facts : Facts)
  | watching (rounds : Nat)
  | reading (index : Nat) (source : CopyPath)
  | rereading (index : Nat) (source : CopyPath) (bytes : Bytes)
  | saving (index : Nat) (source : CopyPath) (bytes : Bytes) (facts : Facts)
  | settling (source : CopyPath) (bytes : Bytes) (saved : FileId)
deriving DecidableEq

/-- The task, its replica and its disk. `kept` is not in the program: the bytes the task
last put at a path or saved from it. -/
structure Desk where
  nodes : List Node
  manifests : FileId → Option Manifest
  connected : Bool
  openFiles : List OpenFile
  cursor : Nat
  activity : Activity
  folders : FileId → Bool
  copies : CopyPath → Option Copy
  kept : CopyPath → Option Bytes

def watchPerTick : Nat := 8

def writeBackSettle : Nat := 1000

namespace Desk

def new : Desk where
  nodes := []
  manifests := fun _ => none
  connected := false
  openFiles := []
  cursor := 0
  activity := .idle
  folders := fun _ => false
  copies := fun _ => none
  kept := fun _ => none

variable (desk : Desk)

def node (nodeId : FileId) : Option Node := desk.nodes.find? (·.id = nodeId)

def put (path : CopyPath) (bytes : Bytes) (outcome : Outcome) : Desk :=
  { desk with
    copies := Function.update desk.copies path (outcome.copy bytes)
    kept := Function.update desk.kept path ((outcome.copy bytes).map Copy.bytes) }

/-- `version.json` of a node, when it can be read. -/
def versionOf [FileNames] (nodeId : FileId) : Option U64 :=
  (desk.copies (indexPath nodeId)).bind fun copy => readVersion copy.bytes

def openNode (nodeId : FileId) : Desk :=
  match desk.activity, desk.node nodeId, desk.manifests nodeId with
  | .idle, some node, some trusted =>
    if node.isDir then desk else { desk with activity := .pulling nodeId node.name trusted }
  | _, _, _ => desk

/-- The bodies are those of the manifest it began with, the version is read now. -/
def pulled [ChunkBodies] (complete : Bool) : Desk :=
  match desk.activity with
  | .pulling nodeId name trusted =>
    let version := ((desk.manifests nodeId).map Manifest.version).getD 0
    if complete then { desk with activity := .checking nodeId name (content trusted) version }
    else { desk with activity := .idle }
  | _ => desk

def check [FileNames] (made : Bool) : Desk :=
  match desk.activity with
  | .checking nodeId name assembled version =>
    let stale := desk.versionOf nodeId ≠ some version ∨ desk.copies (stagedPath nodeId name) = none
    if made = false then { desk with activity := .idle }
    else
      { desk with
        folders := Function.update desk.folders nodeId true
        activity := if stale then .writing nodeId name assembled version else .statting nodeId name }
  | _ => desk

def write [FileNames] (outcome : Outcome) : Desk :=
  match desk.activity with
  | .writing nodeId name assembled version =>
    let activity := match outcome with
      | .done _ => .indexing nodeId name version
      | .failed _ => .idle
    { desk.put (stagedPath nodeId name) assembled outcome with activity := activity }
  | _ => desk

/-- An error of this write is ignored. -/
def index [FileNames] (outcome : Outcome) : Desk :=
  match desk.activity with
  | .indexing nodeId name version =>
    { desk.put (indexPath nodeId) (writeVersion version) outcome with activity := .statting nodeId name }
  | _ => desk

def stat [FileNames] (readable : Bool) : Desk :=
  match desk.activity with
  | .statting nodeId name =>
    match desk.copies (stagedPath nodeId name), readable with
    | some copy, true => { desk with activity := .registering nodeId name copy.facts }
    | _, _ => { desk with activity := .idle }
  | _ => desk

def registerOpen (nodeId : FileId) (path : CopyPath) (facts : Facts) : List OpenFile → List OpenFile
  | [] => [⟨nodeId, path, facts.1, facts.2, none⟩]
  | watched :: rest =>
    if watched.nodeId = nodeId then ⟨nodeId, path, facts.1, facts.2, none⟩ :: rest
    else watched :: registerOpen nodeId path facts rest

def register [FileNames] : Desk :=
  match desk.activity with
  | .registering nodeId name facts =>
    { desk with
      openFiles := registerOpen nodeId (stagedPath nodeId name) facts desk.openFiles
      activity := .idle }
  | _ => desk

def tick : Desk :=
  match desk.activity with
  | .idle =>
    if desk.connected = false ∨ desk.openFiles = [] then desk
    else { desk with activity := .watching (min desk.openFiles.length watchPerTick) }
  | _ => desk

def writeBack (index : Nat) : Desk :=
  match desk.openFiles[index]? with
  | none => { desk with activity := .idle }
  | some watched =>
    match desk.node watched.nodeId with
    | none => { desk with openFiles := desk.openFiles.eraseIdx index, activity := .idle }
    | some _ => { desk with activity := .reading index watched.path }

def settledAt (now : Nat) (watched : OpenFile) : Bool :=
  watched.changedAt.any fun changed => changed + writeBackSettle ≤ now

def look (now : Nat) (readable : Bool) : Desk :=
  match desk.activity with
  | .watching 0 => { desk with activity := .idle }
  | .watching (rounds + 1) =>
    let index := desk.cursor % desk.openFiles.length
    let next := { desk with cursor := (desk.cursor + 1) % 2 ^ 64, activity := .watching rounds }
    match desk.openFiles[index]? with
    | none => next
    | some watched =>
      match desk.copies watched.path, readable with
      | some copy, true =>
        if copy.facts ≠ watched.facts then
          let changed := { watched with len := copy.facts.1, mtime := copy.facts.2, changedAt := some now }
          { next with openFiles := desk.openFiles.set index changed }
        else if settledAt now watched then next.writeBack index
        else next
      | _, _ => next
  | _ => desk

def read (readable : Bool) : Desk :=
  match desk.activity with
  | .reading index source =>
    match desk.copies source, readable with
    | some copy, true => { desk with activity := .rereading index source copy.bytes }
    | _, _ => { desk with activity := .idle }
  | _ => desk

def reread (readable : Bool) : Desk :=
  match desk.activity with
  | .rereading index source bytes =>
    match desk.copies source, readable with
    | some copy, true => { desk with activity := .saving index source bytes copy.facts }
    | _, _ => { desk with activity := .idle }
  | _ => desk

def saved (answer : Option FileId) : Desk :=
  match desk.activity with
  | .saving index source bytes facts =>
    match answer, desk.connected with
    | some fileId, true =>
      let note (watched : OpenFile) : OpenFile :=
        { watched with nodeId := fileId, len := facts.1, mtime := facts.2, changedAt := none }
      { desk with
        openFiles := desk.openFiles.modify index note
        kept := Function.update desk.kept source (some bytes)
        activity := .settling source bytes fileId }
    | _, _ => { desk with activity := .idle }
  | _ => desk

/-- The projection after the save; the version is the one the replica has by then. -/
def settled [FileNames] (nodes : List Node) (outcome : Outcome) : Desk :=
  match desk.activity with
  | .settling _ _ fileId =>
    let next := { desk with nodes := nodes, activity := .idle }
    match next.node fileId, desk.manifests fileId, desk.folders fileId with
    | some _, some manifest, true => next.put (indexPath fileId) (writeVersion manifest.version) outcome
    | _, _, _ => next
  | _ => desk

@[simp] theorem put_copies_self (path : CopyPath) (bytes : Bytes) (outcome : Outcome) :
    (desk.put path bytes outcome).copies path = outcome.copy bytes := Function.update_self ..

theorem put_copies_ne {path other : CopyPath} (h : other ≠ path) (bytes : Bytes) (outcome : Outcome) :
    (desk.put path bytes outcome).copies other = desk.copies other := Function.update_of_ne h ..

variable [FileNames]

theorem versionOf_put_ne {path : CopyPath} {nodeId : FileId} (h : path ≠ indexPath nodeId) (bytes : Bytes)
    (outcome : Outcome) : (desk.put path bytes outcome).versionOf nodeId = desk.versionOf nodeId := by
  unfold versionOf
  rw [put_copies_ne desk h.symm]

theorem versionOf_put_index (nodeId : FileId) (version : U64) (mtime : Nat) :
    (desk.put (indexPath nodeId) (writeVersion version) (.done mtime)).versionOf nodeId = some version := by
  unfold versionOf
  rw [put_copies_self]
  exact readVersion_writeVersion version

end Desk

/-- A step of the task, of its replica or of another program. -/
inductive DeskEvent where
  | external (path : CopyPath) (copy : Option Copy)
  | manifest (fileId : FileId) (manifest : Option Manifest)
  | project (nodes : List Node)
  | connection (up : Bool)
  | restart
  | openNode (nodeId : FileId)
  | pulled (complete : Bool)
  | check (made : Bool)
  | write (outcome : Outcome)
  | index (outcome : Outcome)
  | stat (readable : Bool)
  | register
  | tick
  | look (now : Nat) (readable : Bool)
  | read (readable : Bool)
  | reread (readable : Bool)
  | saved (answer : Option FileId)
  | settled (nodes : List Node) (outcome : Outcome)

/-- Whether it is the task's own doing, or that of other members. -/
def DeskEvent.inside : DeskEvent → Bool
  | .external _ _ => false
  | _ => true

section

variable [ChunkBodies] [FileNames]

def Desk.exec (desk : Desk) : DeskEvent → Desk
  | .external path copy => { desk with copies := Function.update desk.copies path copy }
  | .manifest fileId manifest => { desk with manifests := Function.update desk.manifests fileId manifest }
  | .project nodes => { desk with nodes := nodes }
  | .connection up => { desk with connected := up }
  | .restart => { desk with nodes := [], connected := false, openFiles := [], cursor := 0, activity := .idle }
  | .openNode nodeId => desk.openNode nodeId
  | .pulled complete => desk.pulled complete
  | .check made => desk.check made
  | .write outcome => desk.write outcome
  | .index outcome => desk.index outcome
  | .stat readable => desk.stat readable
  | .register => desk.register
  | .tick => desk.tick
  | .look now readable => desk.look now readable
  | .read readable => desk.read readable
  | .reread readable => desk.reread readable
  | .saved answer => desk.saved answer
  | .settled nodes outcome => desk.settled nodes outcome

def deskMachine : Machine Desk DeskEvent := ⟨fun event desk => desk.exec event⟩

end

end QuantumFs.Client
