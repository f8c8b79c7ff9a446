import E9Patch.Numerals

/-!
The matching of `e9tool.cpp`: each instruction has the list of the actions that match it, equal lists are saved
once, and for each saved list one composite trampoline is sent. Actions are known by their addresses, and what a
plugin writes itself is one token here.
-/

namespace E9Tool
open Numerals (ascii)

inductive PatchKind where
  | PLUGIN | PRINT | CALL | BREAK | TRAP | EMPTY | EXIT | SIGNAL
  deriving DecidableEq, Repr

inductive PatchPos where
  | BEFORE | REPLACE | AFTER
  deriving DecidableEq, Repr

/-- A plugin, and which functions it has. -/
structure Plugin where
  id : Nat
  codeFunc : Bool
  dataFunc : Bool
  patchFunc : Bool
  deriving DecidableEq, Repr

structure Patch where
  name : List UInt8
  kind : PatchKind
  pos : PatchPos
  plugin : Plugin
  deriving DecidableEq, Repr

/-- The patches of the actions at their addresses. -/
abbrev Actions := Nat → List Patch

/-! ### Matchings -/

/-- Compare lists of actions, as addresses. -/
def MatchingCmp : List Nat → List Nat → Bool
  | [], m2 => !m2.isEmpty
  | _ :: _, [] => false
  | a1 :: m1, a2 :: m2 => if a1 < a2 then true else if a1 > a2 then false else MatchingCmp m1 m2

/-- Maps with that comparison: a key is found if neither is less than the other. -/
def mapFind (map : List (List Nat × Nat)) (M : List Nat) : Option Nat :=
  (map.find? fun e => !MatchingCmp M e.1 && !MatchingCmp e.1 M).map Prod.snd

def mapInsert (map : List (List Nat × Nat)) (M : List Nat) (idx : Nat) : List (List Nat × Nat) :=
  if (mapFind map M).isSome then map else map ++ [(M, idx)]

structure MatchingCache where
  cache : List (List Nat × Nat)
  matchings : List (List Nat)

/-- The second loop of the check. -/
def seenTwice : Bool → Bool → List Patch → Bool
  | _, _, [] => false
  | seen_replace, seen_break, patch :: patches =>
    if patch.pos ≠ .REPLACE then seenTwice seen_replace seen_break patches
    else if seen_replace && !seen_break then true
    else seenTwice true (seen_break || patch.kind = .BREAK) patches

/-- More than one replacement takes effect. -/
def multipleReplace (patches : List Patch) : Bool :=
  seenTwice false (patches.any fun patch => patch.kind = .BREAK ∧ patch.pos = .BEFORE) patches

/-- There is one error: multiple matching "replace" trampolines. -/
inductive MatchingError where
  | multipleReplace
  deriving DecidableEq, Repr

/-- Save matching. The vector is moved away before the check reads it. -/
def saveMatching (heap : Actions) (matching : List Nat) (Ms : MatchingCache) :
    Except MatchingError (Nat × MatchingCache) :=
  let M := matching
  let matching : List Nat := []
  match mapFind Ms.cache M with
  | some idx => .ok (idx, Ms)
  | none =>
    if multipleReplace (matching.flatMap heap) then .error .multipleReplace
    else
      let idx := Ms.matchings.length
      .ok (idx, ⟨mapInsert Ms.cache M idx, Ms.matchings ++ [M]⟩)

/-- The matching of one instruction. Its index is kept in 24 bits. -/
def matchInstr (heap : Actions) (s : MatchingCache × List (Option Nat)) (matching : List Nat) :
    Except MatchingError (MatchingCache × List (Option Nat)) :=
  if matching = [] then .ok (s.1, s.2 ++ [none])
  else (saveMatching heap matching s.1).map fun r => (r.2, s.2 ++ [some (r.1 % 2 ^ 24)])

/-- All instructions; `matches` are the lists of the actions that match them. -/
def matchInstrs (heap : Actions) (matchings : List (List Nat)) :
    Except MatchingError (MatchingCache × List (Option Nat)) :=
  matchings.foldlM (matchInstr heap) (⟨[], []⟩, [])

/-! ### Trampolines -/

/-- Metadata: a patch of an action. -/
structure Metadata where
  action : Nat
  idx : Nat
  deriving DecidableEq, Repr

/-- What is written: a string, or what the functions of a plugin write. -/
inductive Token where
  | string (s : List UInt8)
  | code (plugin : Plugin)
  | data (plugin : Plugin)
  deriving DecidableEq, Repr

/-- The template while it is sent. -/
structure Emission where
  tokens : List Token
  seen_break : Bool
  seen_replace : Bool
  metadata : List Metadata

/-- The patches of a list of actions in their order. -/
def patchesOf (heap : Actions) (M : List Nat) : List (Metadata × Patch) :=
  M.flatMap fun action => (heap action).zipIdx.map fun e => (⟨action, e.2⟩, e.1)

def nameOf (heap : Actions) (entry : Metadata) : Option (List UInt8) :=
  (heap entry.action)[entry.idx]?.map Patch.name

def Patch.tokens (patch : Patch) : List Token :=
  if patch.kind = .PLUGIN then if patch.plugin.codeFunc then [.code patch.plugin] else []
  else [.string patch.name]

/-- Patches that have metadata. -/
def Patch.hasMetadata (patch : Patch) : Bool :=
  match patch.kind with
  | .PLUGIN => patch.plugin.patchFunc
  | .PRINT | .CALL => true
  | _ => false

/-- Send a trampoline. Metadata is there once for each name. -/
def sendTrampoline (heap : Actions) (r : Metadata × Patch) (s : Emission) : Emission :=
  let s := { s with tokens := s.tokens ++ r.2.tokens }
  if r.2.kind = .BREAK then { s with seen_break := true }
  else if r.2.hasMetadata ∧ some r.2.name ∉ s.metadata.map (nameOf heap) then
    { s with metadata := s.metadata ++ [r.1] }
  else s

/-- The trampolines of one position, up to a break. -/
def sendPos (heap : Actions) (pos : PatchPos) (refs : List (Metadata × Patch)) (s : Emission) : Emission :=
  refs.foldl (fun s r =>
    if r.2.pos ≠ pos ∨ s.seen_break then s
    else sendTrampoline heap r { s with seen_replace := s.seen_replace || pos = .REPLACE }) s

/-- The data of a patch, if it is not written by a plugin, has its name without the first character. -/
def dataTokens (heap : Actions) (entry : Metadata) : List Token :=
  match (heap entry.action)[entry.idx]? with
  | none => []
  | some patch =>
    if patch.kind = .PLUGIN then if patch.plugin.dataFunc then [.data patch.plugin] else []
    else [.string (ascii "$DATA@" ++ patch.name.drop 1)]

structure Template where
  tokens : List Token
  metadata : List Metadata

/-- The composite trampoline of a list of actions. -/
def sendComposite (heap : Actions) (M : List Nat) : Template :=
  let refs := patchesOf heap M
  let s := sendPos heap .BEFORE refs ⟨[.string (ascii ".Ltrampoline")], false, false, []⟩
  let s := sendPos heap .REPLACE refs s
  let s := if !s.seen_replace && !s.seen_break then { s with tokens := s.tokens ++ [.string (ascii "$instr")] } else s
  let s := sendPos heap .AFTER refs s
  let s := if !s.seen_break then { s with tokens := s.tokens ++ [.string (ascii "$BREAK")] } else s
  ⟨s.tokens ++ s.metadata.flatMap (dataTokens heap), s.metadata⟩

/-- The numbers of the templates: one for each matching. -/
def templateMap (Ms : MatchingCache) : List (List Nat × Nat) :=
  Ms.matchings.zipIdx.foldl (fun tmps e => mapInsert tmps e.1 e.2) []

/-- The number of the template of a matching, as its index tells. A key that is not in the map has the number 0. -/
def templateOf (Ms : MatchingCache) (matching : Nat) : Nat :=
  ((Ms.matchings[matching]?.bind (mapFind (templateMap Ms))).getD 0)

end E9Tool
