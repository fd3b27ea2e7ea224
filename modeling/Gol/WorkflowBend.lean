import Mathlib.Data.List.Infix
import Gol.LibraryPostfix
import Gol.WorkflowFrontends

/-! Bend's encoding of a program (`workflow-bend`): one quoted line of tokens in postfix, read by a stack machine. A
sequence under construction and a decision are both values of its stack, and either stands in for the other; yet what
the machine has read is what its stack encodes to, so a line is the encoding of the one program it is read as. -/

namespace Gol
open Library Workflow

namespace Bend

inductive FrontendError where
  | encoding (message : String)
  deriving DecidableEq

/-- How parsing ends without a program: refused, or by an index out of bounds. -/
inductive Stopped where
  | refused (error : FrontendError)
  | panicked
  deriving DecidableEq

abbrev Parsed (α : Type) := Except Stopped α

def encoding {α : Type} (message : String) : Parsed α := .error (.refused (.encoding message))

/-- The most tokens a v2 line may have. -/
def maxTokens : Nat := 2048
def maxNameBytes : Nat := 128
def maxInputBytes : Nat := 64 * 1024

/-- A value on the decoder's stack: a decision, or the items of a sequence still being built. -/
inductive Item where
  | decision (decision : Decision)
  | items (decisions : List Decision)

def Item.intoDecision : Item → Decision
  | .decision root => root
  | .items decisions => .seq decisions

def newline : UInt8 := 10
def space : UInt8 := 32
def quote : UInt8 := 34
def dot : UInt8 := 46
def backslash : UInt8 := 92

def isAsciiGraphic (byte : UInt8) : Bool := 33 ≤ byte && byte ≤ 126

def popDecision (stack : List Item) (token : String) : Parsed (Decision × List Item) :=
  match stack with
  | item :: rest => .ok (item.intoDecision, rest)
  | [] => encoding s!"{token} is missing a decision"

/-! The line is read as its bytes: all it is split at and compared with is ASCII. -/

def digit (byte : UInt8) : Option UInt8 :=
  if 48 ≤ byte ∧ byte ≤ 57 then some (byte - 48)
  else if 97 ≤ byte ∧ byte ≤ 102 then some (byte - 97 + 10)
  else none

/-- The bytes two by two. -/
def chunks : Bytes → List Bytes
  | [] => []
  | [last] => [[last]]
  | first :: second :: rest => [first, second] :: chunks rest

/-- A pair's byte. Indexing past the pair panics. -/
def pairByte (pair : Bytes) : Parsed (Option UInt8) :=
  match pair[0]? with
  | none => .error .panicked
  | some first =>
      match digit first with
      | none => .ok none
      | some high =>
          match pair[1]? with
          | none => .error .panicked
          | some second => .ok ((digit second).map fun low => high <<< 4 ||| low)

/-- The pairs' bytes, if each has one. -/
def collect : List Bytes → Parsed (Option Bytes)
  | [] => .ok (some [])
  | pair :: rest => do
      match ← pairByte pair with
      | none => return none
      | some byte => return (← collect rest).map (byte :: ·)

/-- Lowercase hex of UTF-8 text. -/
def unhex (hex : Bytes) : Parsed String := do
  if hex.length % 2 ≠ 0 then encoding "hex text must have an even length"
  else
    match ← collect (chunks hex) with
    | none => encoding "hex text must be lowercase hex digits"
    | some bytes =>
        match textOf bytes with
        | none => encoding "hex text must be UTF-8"
        | some text => return text

/-- The bytes before the first dot and those after it. -/
def splitOnce (texts : Bytes) : Option (Bytes × Bytes) :=
  match texts.span (· ≠ dot) with
  | (name, _ :: input) => some (name, input)
  | (_, []) => none

/-- A name's limits, and an input's. -/
def inBounds (name input : String) : Bool :=
  !(bytesOf name).isEmpty && (bytesOf name).length ≤ maxNameBytes && (bytesOf input).length ≤ maxInputBytes

/-- `<name>.<input>`: a name of 1 to 128 bytes and an input of at most 65536. -/
def textsOf (texts : Bytes) : Parsed (String × String) :=
  match splitOnce texts with
  | none => encoding "a tool or spawn token needs a name and an input"
  | some (name, input) => do
      let name ← unhex name
      let input ← unhex input
      if inBounds name input then return (name, input)
      else encoding "a tool or spawn name or input is out of bounds"

/-- The stack after a token. -/
def step (stack : List Item) (token : Bytes) : Parsed (List Item) :=
  if token = bytesOf "complete" then .ok (.decision .complete :: stack)
  else if token = bytesOf "fail" then .ok (.decision .fail :: stack)
  else if token = bytesOf "end" then .ok (.items [] :: stack)
  else if token = bytesOf "seq" then
    match stack with
    | .items items :: stack => do
        let (head, stack) ← popDecision stack "seq"
        return .items (head :: items) :: stack
    | _ => encoding "seq must follow a sequence"
  else if token = bytesOf "on_counter" then do
    let (other, stack) ← popDecision stack "on_counter"
    let (onZero, stack) ← popDecision stack "on_counter"
    let (missing, stack) ← popDecision stack "on_counter"
    return .decision (.onCounter missing onZero other) :: stack
  else
    match token.dropPrefix? (bytesOf "tool.") with
    | some texts => do
        let (name, input) ← textsOf texts
        return .decision (.tool name input) :: stack
    | none =>
        match token.dropPrefix? (bytesOf "spawn.") with
        | some texts => do
            let (agent, input) ← textsOf texts
            return .decision (.spawnAgent agent input) :: stack
        | none => encoding s!"unknown token {String.ofList (token.map fun byte => Char.ofNat byte.toNat)}"

/-- The stack after the tokens, `count` of them read before. -/
def readTokens : Nat → List Item → List Bytes → Parsed (List Item)
  | _, stack, [] => .ok stack
  | count, stack, token :: rest =>
      if maxTokens ≤ count then encoding "bend encoding has too many tokens"
      else do readTokens (count + 1) (← step stack token) rest

/-- Parses Bend's v2 line. -/
def parseEncoding (stdout : String) : Parsed WorkflowProgram :=
  match (bytesOf stdout).dropSuffix? [newline] with
  | none => encoding "bend encoding is missing its trailing newline"
  | some line =>
      if newline ∈ line then encoding "bend encoding must be one line" else
      match (line.dropPrefix? [quote]).bind (·.dropSuffix? [quote]) with
      | none => encoding "bend encoding must be a quoted token line"
      | some inner =>
          if ¬ inner.all (fun byte => isAsciiGraphic byte || byte = space) ∨ backslash ∈ inner ∨ quote ∈ inner then
            encoding "bend encoding has an unsupported character"
          else
            match inner.splitOn space with
            | [] => encoding "expected a v2 token line"
            | version :: tokens =>
                if version ≠ bytesOf "v2" then encoding "expected a v2 token line" else do
                match ← readTokens 0 [] tokens with
                | [root] => return ⟨root.intoDecision⟩
                | _ => encoding "bend encoding must leave exactly one program"

/-! ### The reference encoder -/

def hexDigit (value : Nat) : Char := if value < 10 then Char.ofNat (48 + value) else Char.ofNat (87 + value)

def hex (text : String) : String :=
  String.ofList ((bytesOf text).flatMap fun byte => [hexDigit (byte.toNat / 16), hexDigit (byte.toNat % 16)])

mutual

/-- The tokens a decision is written as. -/
def decisionTokens : Decision → List String
  | .tool name input => [s!"tool.{hex name}.{hex input}"]
  | .spawnAgent agent input => [s!"spawn.{hex agent}.{hex input}"]
  | .complete => ["complete"]
  | .fail => ["fail"]
  | .onCounter missing onZero other =>
      decisionTokens missing ++ decisionTokens onZero ++ decisionTokens other ++ ["on_counter"]
  | .seq decisions => sequenceTokens decisions

def sequenceTokens : List Decision → List String
  | [] => ["end"]
  | head :: rest => decisionTokens head ++ sequenceTokens rest ++ ["seq"]

end

/-- The v2 line a program encodes to. -/
def encodeLine (program : WorkflowProgram) : String :=
  "\"" ++ " ".intercalate ("v2" :: decisionTokens program.root) ++ "\"\n"

/-! ### Texts in hex -/

/-- The byte of a hex digit. -/
def hexByte (value : Nat) : UInt8 := if value < 10 then 48 + value.toUInt8 else 87 + value.toUInt8

/-- A byte's two digits. -/
def hexPair (byte : UInt8) : Bytes := [hexByte (byte.toNat / 16), hexByte (byte.toNat % 16)]

theorem bytesOf_ofList_append (chars more : List Char) :
    bytesOf (String.ofList (chars ++ more)) = bytesOf (String.ofList chars) ++ bytesOf (String.ofList more) := by
  rw [String.ofList_append, bytesOf_append]

theorem bytesOf_hexDigit : ∀ value < 16, bytesOf (String.ofList [hexDigit value]) = [hexByte value] := by
  decide +kernel

theorem bytesOf_hexPair (byte : UInt8) :
    bytesOf (String.ofList [hexDigit (byte.toNat / 16), hexDigit (byte.toNat % 16)]) = hexPair byte := by
  have hbyte := byte.toNat_lt
  have hhigh := bytesOf_hexDigit (byte.toNat / 16) (by omega)
  have hlow := bytesOf_hexDigit (byte.toNat % 16) (by omega)
  rw [← List.singleton_append, bytesOf_ofList_append, hhigh, hlow]
  rfl

theorem bytesOf_hex (text : String) : bytesOf (hex text) = (bytesOf text).flatMap hexPair := by
  rw [hex]
  generalize bytesOf text = bytes
  induction bytes with
  | nil => rfl
  | cons byte rest ih => rw [List.flatMap_cons, bytesOf_ofList_append, bytesOf_hexPair, ih, List.flatMap_cons]

/-- A digit is lowercase hex, and it reads as its value. -/
theorem digit_hexByte : ∀ value < 16, digit (hexByte value) = some value.toUInt8 := by
  decide +kernel

theorem hexByte_of_digit {byte value : UInt8} (h : digit byte = some value) :
    value.toNat < 16 ∧ hexByte value.toNat = byte := by
  have hall : ∀ n < 256, (digit (UInt8.ofNat n)).all fun value =>
      decide (value.toNat < 16) && hexByte value.toNat == UInt8.ofNat n := by decide +kernel
  have hbyte := hall byte.toNat byte.toNat_lt
  rw [UInt8.ofNat_toNat, h, Option.all_some, Bool.and_eq_true, decide_eq_true_iff, beq_iff_eq] at hbyte
  exact hbyte

/-- A byte of its halves. -/
theorem halves : ∀ high < 16, ∀ low < 16, (Nat.toUInt8 high <<< 4 ||| Nat.toUInt8 low).toNat = 16 * high + low := by
  decide +kernel

theorem pairByte_hexPair (byte : UInt8) : pairByte (hexPair byte) = .ok (some byte) := by
  have hbyte := byte.toNat_lt
  have hhigh := digit_hexByte (byte.toNat / 16) (by omega)
  have hlow := digit_hexByte (byte.toNat % 16) (by omega)
  have hhalves := halves (byte.toNat / 16) (by omega) (byte.toNat % 16) (by omega)
  have hsame : (byte.toNat / 16).toUInt8 <<< 4 ||| (byte.toNat % 16).toUInt8 = byte := by
    apply UInt8.toNat_inj.mp
    rw [hhalves]
    omega
  simp only [pairByte, hexPair, List.getElem?_cons_zero, List.getElem?_cons_succ, hhigh, hlow, Option.map_some, hsame]

theorem hexPair_of_pairByte {first second byte : UInt8} (h : pairByte [first, second] = .ok (some byte)) :
    hexPair byte = [first, second] := by
  simp only [pairByte, List.getElem?_cons_zero, List.getElem?_cons_succ] at h
  cases hhigh : digit first with
  | none => simp [hhigh] at h
  | some high =>
      cases hlow : digit second with
      | none => simp [hhigh, hlow] at h
      | some low =>
          simp only [hhigh, hlow, Option.map_some, Except.ok.injEq, Option.some.injEq] at h
          obtain ⟨hhigh16, hfirst⟩ := hexByte_of_digit hhigh
          obtain ⟨hlow16, hsecond⟩ := hexByte_of_digit hlow
          have hhalves := halves high.toNat hhigh16 low.toNat hlow16
          have hnat : byte.toNat = 16 * high.toNat + low.toNat := by
            rw [← h, ← hhalves]
            simp only [Nat.toUInt8_eq, UInt8.ofNat_toNat]
          rw [hexPair, hnat, ← hfirst, ← hsecond]
          congr 2
          · omega
          · congr 1
            omega

/-- What a program of two parts answers. -/
theorem bind_ok {α β : Type} {first : Parsed α} {next : α → Parsed β} {answer : β} :
    first >>= next = .ok answer ↔ ∃ middle, first = .ok middle ∧ next middle = .ok answer := by
  cases first with
  | error error => simp [bind, Except.bind]
  | ok middle => simp [bind, Except.bind]

theorem collect_hexPairs (bytes : Bytes) : collect (chunks (bytes.flatMap hexPair)) = .ok (some bytes) := by
  induction bytes with
  | nil => rfl
  | cons byte rest ih =>
      show collect (hexPair byte :: chunks (rest.flatMap hexPair)) = _
      rw [collect, pairByte_hexPair, ih]
      rfl

/-- Pairs that read as bytes are their digits. -/
theorem hexPairs_of_collect : ∀ {hex bytes : Bytes}, hex.length % 2 = 0 → collect (chunks hex) = .ok (some bytes) →
    hex = bytes.flatMap hexPair
  | [], bytes, _, h => by
      cases h
      rfl
  | [last], _, hlength, _ => by simp at hlength
  | first :: second :: rest, bytes, hlength, h => by
      rw [chunks, collect] at h
      obtain ⟨byte, hpair, hrest⟩ := bind_ok.mp h
      cases byte with
      | none => cases hrest
      | some byte =>
          obtain ⟨tail, htail, hbytes⟩ := bind_ok.mp hrest
          cases tail with
          | none => cases hbytes
          | some tail =>
              cases hbytes
              have hlength' : rest.length % 2 = 0 := by
                simp only [List.length_cons] at hlength
                omega
              rw [List.flatMap_cons, ← hexPairs_of_collect hlength' htail, hexPair_of_pairByte hpair]
              rfl

theorem length_hexPairs (bytes : Bytes) : (bytes.flatMap hexPair).length = 2 * bytes.length := by
  induction bytes with
  | nil => rfl
  | cons byte rest ih =>
      rw [List.flatMap_cons, List.length_append, ih, List.length_cons]
      show 2 + 2 * rest.length = _
      omega

theorem unhex_ok {digits : Bytes} {text : String} : unhex digits = .ok text ↔ digits = bytesOf (hex text) := by
  rw [bytesOf_hex, unhex]
  constructor
  · intro h
    split at h
    · cases h
    · next heven =>
        obtain ⟨bytes, hbytes, hread⟩ := bind_ok.mp h
        cases bytes with
        | none => cases hread
        | some bytes =>
            cases htext : textOf bytes with
            | none => simp [htext, encoding] at hread
            | some read =>
                simp only [htext] at hread
                obtain rfl : read = text := Except.ok.inj hread
                rw [← textOf_eq_some.mp htext]
                exact hexPairs_of_collect (not_not.mp heven) hbytes
  · rintro rfl
    rw [if_neg (by rw [length_hexPairs]; omega), collect_hexPairs]
    simp only [bind, Except.bind, textOf_bytesOf]
    rfl

/-- A byte that a token may hold. -/
def plain (byte : UInt8) : Bool := isAsciiGraphic byte && byte != quote && byte != backslash

theorem hexByte_plain : ∀ value < 16, plain (hexByte value) && hexByte value != dot := by
  decide +kernel

/-- Hex is plain, and has no dot. -/
theorem mem_hex {text : String} {byte : UInt8} (h : byte ∈ bytesOf (hex text)) : plain byte = true ∧ byte ≠ dot := by
  rw [bytesOf_hex] at h
  obtain ⟨source, -, hmem⟩ := List.mem_flatMap.mp h
  have hsource := source.toNat_lt
  have hdigit : ∃ value < 16, byte = hexByte value := by
    rw [hexPair, List.mem_cons, List.mem_singleton] at hmem
    rcases hmem with rfl | rfl
    · exact ⟨_, by omega, rfl⟩
    · exact ⟨_, by omega, rfl⟩
  obtain ⟨value, hvalue, rfl⟩ := hdigit
  simpa using hexByte_plain value hvalue

theorem splitOnce_append {name : Bytes} (hname : dot ∉ name) (input : Bytes) :
    splitOnce (name ++ dot :: input) = some (name, input) := by
  have hall : ∀ byte ∈ name, (decide (byte ≠ dot)) = true := by
    intro byte hmem
    exact decide_eq_true fun heq => hname (heq ▸ hmem)
  rw [splitOnce, List.span_eq_takeWhile_dropWhile, List.takeWhile_append_of_pos hall, List.dropWhile_append_of_pos hall]
  simp

theorem eq_of_splitOnce {texts name input : Bytes} (h : splitOnce texts = some (name, input)) :
    texts = name ++ dot :: input := by
  rw [splitOnce, List.span_eq_takeWhile_dropWhile] at h
  have htexts := List.takeWhile_append_dropWhile (p := fun byte => decide (byte ≠ dot)) (l := texts)
  have hhead := List.head?_dropWhile_not (fun byte => decide (byte ≠ dot)) texts
  generalize texts.dropWhile (fun byte => decide (byte ≠ dot)) = after at h htexts hhead
  cases after with
  | nil => cases h
  | cons first rest =>
      cases h
      obtain rfl : first = dot := by simpa using hhead
      exact htexts.symm

theorem textsOf_ok {texts : Bytes} {name input : String} :
    textsOf texts = .ok (name, input) ↔
      inBounds name input = true ∧ texts = bytesOf (hex name) ++ dot :: bytesOf (hex input) := by
  constructor
  · intro h
    rw [textsOf] at h
    cases hsplit : splitOnce texts with
    | none => simp [hsplit, encoding] at h
    | some parts =>
        obtain ⟨first, second⟩ := parts
        simp only [hsplit] at h
        obtain ⟨name', hname, h⟩ := bind_ok.mp h
        obtain ⟨input', hinput, h⟩ := bind_ok.mp h
        split at h
        · next hbounds =>
            cases h
            rw [eq_of_splitOnce hsplit, unhex_ok.mp hname, unhex_ok.mp hinput]
            exact ⟨hbounds, rfl⟩
        · cases h
  · rintro ⟨hbounds, rfl⟩
    have hdot : dot ∉ bytesOf (hex name) := fun hdot => (mem_hex hdot).2 rfl
    have hsplit := splitOnce_append hdot (bytesOf (hex input))
    have hname := unhex_ok.mpr (rfl : bytesOf (hex name) = bytesOf (hex name))
    have hinput := unhex_ok.mpr (rfl : bytesOf (hex input) = bytesOf (hex input))
    simp only [textsOf, hsplit, hname, hinput, bind, Except.bind, hbounds, if_true]
    rfl

/-! ### The machine -/

/-- What a value of the stack encodes to. -/
def Item.tokens (item : Item) : List Bytes := (decisionTokens item.intoDecision).map bytesOf

/-- The token of a tool call or a spawn, as bytes. -/
theorem bytesOf_call (kind name input : String) :
    bytesOf (kind ++ hex name ++ "." ++ hex input) = bytesOf kind ++
      (bytesOf (hex name) ++ dot :: bytesOf (hex input)) := by
  have hdot : bytesOf "." = [dot] := by decide +kernel
  simp only [bytesOf_append, hdot, List.append_assoc, List.singleton_append]

theorem popDecision_ok {stack rest : List Item} {token : String} {decision : Decision}
    (h : popDecision stack token = .ok (decision, rest)) :
    ∃ item, stack = item :: rest ∧ decision = item.intoDecision := by
  cases stack with
  | nil => cases h
  | cons item rest' =>
      cases h
      exact ⟨item, rfl, rfl⟩

theorem dropPrefix_eq_some {bytes start rest : Bytes} :
    bytes.dropPrefix? start = some rest ↔ bytes = start ++ rest := by
  rw [List.dropPrefix?_eq_some_iff]
  simp

theorem dropSuffix_eq_some {bytes final rest : Bytes} :
    bytes.dropSuffix? final = some rest ↔ bytes = rest ++ final := by
  rw [List.dropSuffix?_eq_some_iff]
  simp

/-- A token puts one value on the stack for those it takes off, which encodes as they do and the token. -/
theorem step_made {stack later : List Item} {token : Bytes} (h : step stack token = .ok later) :
    written Item.tokens later = written Item.tokens stack ++ [token] := by
  unfold step at h
  split at h
  · next htoken =>
      cases h
      rw [written_cons, htoken]
      rfl
  split at h
  · next htoken =>
      cases h
      rw [written_cons, htoken]
      rfl
  split at h
  · next htoken =>
      cases h
      rw [written_cons, htoken]
      rfl
  split at h
  · next htoken =>
      split at h
      · next items rest =>
          obtain ⟨⟨head, below⟩, hhead, h⟩ := bind_ok.mp h
          obtain ⟨item, rfl, rfl⟩ := popDecision_ok hhead
          cases h
          simp only [written_cons, Item.tokens, Item.intoDecision, decisionTokens, sequenceTokens, List.map_append,
            List.map_cons, List.map_nil, List.append_assoc, htoken]
      · cases h
  split at h
  · next htoken =>
      obtain ⟨⟨other, afterOther⟩, hother, h⟩ := bind_ok.mp h
      obtain ⟨⟨onZero, afterZero⟩, hzero, h⟩ := bind_ok.mp h
      obtain ⟨⟨missing, below⟩, hmissing, h⟩ := bind_ok.mp h
      obtain ⟨first, rfl, rfl⟩ := popDecision_ok hother
      obtain ⟨second, rfl, rfl⟩ := popDecision_ok hzero
      obtain ⟨third, rfl, rfl⟩ := popDecision_ok hmissing
      cases h
      simp only [written_cons, Item.tokens, Item.intoDecision, decisionTokens, List.map_append, List.map_cons,
        List.map_nil, List.append_assoc, htoken]
  split at h
  · next texts htexts =>
      obtain ⟨⟨name, input⟩, hread, h⟩ := bind_ok.mp h
      cases h
      rw [written_cons, dropPrefix_eq_some.mp htexts, (textsOf_ok.mp hread).2, ← bytesOf_call]
      rfl
  split at h
  · next texts htexts =>
      obtain ⟨⟨agent, input⟩, hread, h⟩ := bind_ok.mp h
      cases h
      rw [written_cons, dropPrefix_eq_some.mp htexts, (textsOf_ok.mp hread).2, ← bytesOf_call]
      rfl
  · cases h

mutual

/-- The names and the inputs of a decision are in bounds. -/
def Fits : Decision → Prop
  | .tool name input | .spawnAgent name input => inBounds name input = true
  | .complete | .fail => True
  | .onCounter missing onZero other => Fits missing ∧ Fits onZero ∧ Fits other
  | .seq decisions => FitsSeq decisions

def FitsSeq : List Decision → Prop
  | [] => True
  | head :: rest => Fits head ∧ FitsSeq rest

end

/-- The value a decision is read as. -/
def itemOf : Decision → Item
  | .seq decisions => .items decisions
  | decision => .decision decision

@[simp] theorem intoDecision_itemOf (decision : Decision) : (itemOf decision).intoDecision = decision := by
  cases decision <;> rfl

theorem step_complete (stack : List Item) :
    step stack (bytesOf "complete") = .ok (.decision .complete :: stack) := if_pos rfl

theorem step_fail (stack : List Item) : step stack (bytesOf "fail") = .ok (.decision .fail :: stack) := by
  unfold step
  rw [if_neg (by decide +kernel), if_pos rfl]

theorem step_end (stack : List Item) : step stack (bytesOf "end") = .ok (.items [] :: stack) := by
  unfold step
  rw [if_neg (by decide +kernel), if_neg (by decide +kernel), if_pos rfl]

theorem step_seq (head : Decision) (rest : List Decision) (stack : List Item) :
    step (.items rest :: itemOf head :: stack) (bytesOf "seq") = .ok (.items (head :: rest) :: stack) := by
  unfold step
  rw [if_neg (by decide +kernel), if_neg (by decide +kernel), if_neg (by decide +kernel), if_pos rfl]
  simp only [popDecision, bind, Except.bind, intoDecision_itemOf]
  rfl

theorem step_onCounter (missing onZero other : Decision) (stack : List Item) :
    step (itemOf other :: itemOf onZero :: itemOf missing :: stack) (bytesOf "on_counter") =
      .ok (.decision (.onCounter missing onZero other) :: stack) := by
  unfold step
  rw [if_neg (by decide +kernel), if_neg (by decide +kernel), if_neg (by decide +kernel), if_neg (by decide +kernel),
    if_pos rfl]
  simp only [popDecision, bind, Except.bind, intoDecision_itemOf]
  rfl

theorem append_ne {start rest literal : Bytes} (h : ¬ start <+: literal) : start ++ rest ≠ literal :=
  fun heq => h ⟨rest, heq⟩

theorem step_tool {name input : String} (h : inBounds name input = true) (stack : List Item) :
    step stack (bytesOf s!"tool.{hex name}.{hex input}") = .ok (.decision (.tool name input) :: stack) := by
  have htoken : bytesOf s!"tool.{hex name}.{hex input}" = bytesOf "tool." ++
      (bytesOf (hex name) ++ dot :: bytesOf (hex input)) :=
    bytesOf_call "tool." name input
  have hread := textsOf_ok.mpr ⟨h, rfl⟩
  generalize bytesOf (hex name) ++ dot :: bytesOf (hex input) = texts at htoken hread
  unfold step
  rw [htoken, if_neg (append_ne (by decide +kernel)), if_neg (append_ne (by decide +kernel)),
    if_neg (append_ne (by decide +kernel)), if_neg (append_ne (by decide +kernel)),
      if_neg (append_ne (by decide +kernel)),
    dropPrefix_eq_some.mpr rfl]
  simp only [hread, bind, Except.bind]
  rfl

theorem step_spawnAgent {agent input : String} (h : inBounds agent input = true) (stack : List Item) :
    step stack (bytesOf s!"spawn.{hex agent}.{hex input}") = .ok (.decision (.spawnAgent agent input) :: stack) := by
  have htoken : bytesOf s!"spawn.{hex agent}.{hex input}" =
      bytesOf "spawn." ++ (bytesOf (hex agent) ++ dot :: bytesOf (hex input)) := bytesOf_call "spawn." agent input
  have hread := textsOf_ok.mpr ⟨h, rfl⟩
  generalize bytesOf (hex agent) ++ dot :: bytesOf (hex input) = texts at htoken hread
  have htool : (bytesOf "spawn." ++ texts).dropPrefix? (bytesOf "tool.") = none := by
    refine Option.eq_none_iff_forall_ne_some.mpr fun rest hrest => ?_
    have hstart : bytesOf "tool." <+: bytesOf "spawn." :=
      List.prefix_of_prefix_length_le ⟨rest, (dropPrefix_eq_some.mp hrest).symm⟩
        (List.prefix_append ..) (by decide +kernel)
    exact absurd hstart (by decide +kernel)
  unfold step
  rw [htoken, if_neg (append_ne (by decide +kernel)), if_neg (append_ne (by decide +kernel)),
    if_neg (append_ne (by decide +kernel)), if_neg (append_ne (by decide +kernel)),
      if_neg (append_ne (by decide +kernel)),
    htool]
  simp only [dropPrefix_eq_some.mpr rfl, hread, bind, Except.bind]
  rfl

mutual

/-- The machine reads a decision back from its tokens, whatever stands below it. -/
theorem read_decision : ∀ {decision : Decision}, Fits decision → ∀ stack : List Item,
    ((decisionTokens decision).map bytesOf).foldlM step stack = .ok (itemOf decision :: stack)
  | .tool name input, hfits, stack => by
      rw [decisionTokens, List.map_singleton, List.foldlM_cons, step_tool hfits]
      rfl
  | .spawnAgent agent input, hfits, stack => by
      rw [decisionTokens, List.map_singleton, List.foldlM_cons, step_spawnAgent hfits]
      rfl
  | .complete, _, stack => by
      rw [decisionTokens, List.map_singleton, List.foldlM_cons, step_complete]
      rfl
  | .fail, _, stack => by
      rw [decisionTokens, List.map_singleton, List.foldlM_cons, step_fail]
      rfl
  | .onCounter missing onZero other, hfits, stack => by
      rw [Fits] at hfits
      obtain ⟨hmissing, hzero, hother⟩ := hfits
      rw [decisionTokens, List.map_append, List.map_append, List.map_append, List.foldlM_append, List.foldlM_append,
        List.foldlM_append, read_decision hmissing]
      show (List.foldlM step (itemOf missing :: stack) ((decisionTokens onZero).map bytesOf) >>= _) >>= _ = _
      rw [read_decision hzero]
      show (List.foldlM step (itemOf onZero :: itemOf missing :: stack) ((decisionTokens other).map bytesOf)) >>= _ = _
      rw [read_decision hother, List.map_singleton]
      show (List.foldlM step (itemOf other :: itemOf onZero :: itemOf missing :: stack) [bytesOf "on_counter"]) = _
      rw [List.foldlM_cons, step_onCounter]
      rfl
  | .seq decisions, hfits, stack => read_sequence hfits stack

theorem read_sequence : ∀ {decisions : List Decision}, FitsSeq decisions → ∀ stack : List Item,
    ((sequenceTokens decisions).map bytesOf).foldlM step stack = .ok (.items decisions :: stack)
  | [], _, stack => by
      rw [sequenceTokens, List.map_singleton, List.foldlM_cons, step_end]
      rfl
  | head :: rest, hfits, stack => by
      rw [FitsSeq] at hfits
      rw [sequenceTokens, List.map_append, List.map_append, List.foldlM_append, List.foldlM_append,
        read_decision hfits.1]
      show (List.foldlM step (itemOf head :: stack) ((sequenceTokens rest).map bytesOf)) >>= _ = _
      rw [read_sequence hfits.2, List.map_singleton]
      show (List.foldlM step (.items rest :: itemOf head :: stack) [bytesOf "seq"]) = _
      rw [List.foldlM_cons, step_seq]
      rfl

end

/-- The machine as one of postfix: it reads back what fits. -/
theorem postfix_step : Postfix step Item.tokens fun item => ∃ decision, item = itemOf decision ∧ Fits decision where
  made := step_made
  read := by
    rintro _ ⟨decision, rfl, hfits⟩ stack
    rw [Item.tokens, intoDecision_itemOf]
    exact read_decision hfits stack

/-! ### The line -/

theorem readTokens_ok {tokens : List Bytes} {count : Nat} {stack later : List Item} :
    readTokens count stack tokens = .ok later ↔
      tokens.foldlM step stack = .ok later ∧ (tokens = [] ∨ count + tokens.length ≤ maxTokens) := by
  induction tokens generalizing count stack with
  | nil => simp [readTokens, pure, Except.pure]
  | cons token rest ih =>
      rw [readTokens, List.foldlM_cons]
      by_cases hcount : maxTokens ≤ count
      · rw [if_pos hcount]
        constructor
        · intro h
          cases h
        · rintro ⟨-, hfew⟩
          simp only [reduceCtorEq, List.length_cons, false_or] at hfew
          omega
      · rw [if_neg hcount, bind_ok, bind_ok]
        simp only [ih, List.length_cons, reduceCtorEq, false_or]
        constructor
        · rintro ⟨next, hnext, hrest, hfew⟩
          refine ⟨⟨next, hnext, hrest⟩, ?_⟩
          rcases hfew with rfl | hfew
          · rw [List.length_nil]
            omega
          · omega
        · rintro ⟨⟨next, hnext, hrest⟩, hfew⟩
          exact ⟨next, hnext, hrest, .inr (by omega)⟩

theorem plain_literal {literal : String} (h : (bytesOf literal).all plain = true) {byte : UInt8}
    (hbyte : byte ∈ bytesOf literal) :
    plain byte = true := List.all_eq_true.mp h byte hbyte

theorem plain_call {kind : String} (h : (bytesOf kind).all plain = true) (name input : String) {byte : UInt8}
    (hbyte : byte ∈ bytesOf (kind ++ hex name ++ "." ++ hex input)) : plain byte = true := by
  rw [bytesOf_call, List.mem_append, List.mem_append, List.mem_cons] at hbyte
  rcases hbyte with hkind | hname | rfl | hinput
  · exact plain_literal h hkind
  · exact (mem_hex hname).1
  · decide
  · exact (mem_hex hinput).1

mutual

theorem plain_decision :
    ∀ (decision : Decision), ∀ token ∈ decisionTokens decision, ∀ byte ∈ bytesOf token, plain byte = true
  | .tool name input, token, htoken, byte, hbyte => by
      rw [decisionTokens, List.mem_singleton] at htoken
      rw [htoken] at hbyte
      exact plain_call (by decide +kernel) name input hbyte
  | .spawnAgent agent input, token, htoken, byte, hbyte => by
      rw [decisionTokens, List.mem_singleton] at htoken
      rw [htoken] at hbyte
      exact plain_call (by decide +kernel) agent input hbyte
  | .complete, token, htoken, byte, hbyte => by
      rw [decisionTokens, List.mem_singleton] at htoken
      exact plain_literal (by decide +kernel) (htoken ▸ hbyte)
  | .fail, token, htoken, byte, hbyte => by
      rw [decisionTokens, List.mem_singleton] at htoken
      exact plain_literal (by decide +kernel) (htoken ▸ hbyte)
  | .onCounter missing onZero other, token, htoken, byte, hbyte => by
      simp only [decisionTokens, List.mem_append, List.mem_singleton] at htoken
      rcases htoken with ((hmissing | hzero) | hother) | rfl
      · exact plain_decision missing token hmissing byte hbyte
      · exact plain_decision onZero token hzero byte hbyte
      · exact plain_decision other token hother byte hbyte
      · exact plain_literal (by decide +kernel) hbyte
  | .seq decisions, token, htoken, byte, hbyte => plain_sequence decisions token htoken byte hbyte

theorem plain_sequence : ∀ (decisions : List Decision), ∀ token ∈ sequenceTokens decisions, ∀ byte ∈ bytesOf token,
    plain byte = true
  | [], token, htoken, byte, hbyte => by
      rw [sequenceTokens, List.mem_singleton] at htoken
      exact plain_literal (by decide +kernel) (htoken ▸ hbyte)
  | head :: rest, token, htoken, byte, hbyte => by
      simp only [sequenceTokens, List.mem_append, List.mem_singleton] at htoken
      rcases htoken with (hhead | hrest) | rfl
      · exact plain_decision head token hhead byte hbyte
      · exact plain_sequence rest token hrest byte hbyte
      · exact plain_literal (by decide +kernel) hbyte

end

theorem mem_intercalate {byte : UInt8} {separator : Bytes} {texts : List Bytes}
    (h : byte ∈ separator.intercalate texts) : byte ∈ separator ∨ ∃ text ∈ texts, byte ∈ text := by
  induction texts with
  | nil => simp at h
  | cons text rest ih =>
      cases rest with
      | nil =>
          rw [List.intercalate_singleton] at h
          exact .inr ⟨text, List.mem_singleton_self _, h⟩
      | cons next rest =>
          rw [List.intercalate_cons_cons, List.mem_append, List.mem_append] at h
          rcases h with (htext | hseparator) | hrest
          · exact .inr ⟨text, List.mem_cons_self .., htext⟩
          · exact .inl hseparator
          · rcases ih hrest with hseparator | ⟨other, hother, hmem⟩
            · exact .inl hseparator
            · exact .inr ⟨other, List.mem_cons_of_mem _ hother, hmem⟩

/-- The tokens between the quotes. -/
def innerOf (program : WorkflowProgram) : Bytes :=
  [space].intercalate (bytesOf "v2" :: (decisionTokens program.root).map bytesOf)

theorem bytesOf_encodeLine (program : WorkflowProgram) :
    bytesOf (encodeLine program) = ([quote] ++ (innerOf program ++ [quote])) ++ [newline] := by
  have hquote : bytesOf "\"" = [quote] := by decide +kernel
  have hend : bytesOf "\"\n" = [quote] ++ [newline] := by decide +kernel
  have hspace : bytesOf " " = [space] := by decide +kernel
  rw [encodeLine, bytesOf_append, bytesOf_append, bytesOf_intercalate, hquote, hend, hspace, List.map_cons, innerOf,
    List.append_assoc, List.append_assoc, List.append_assoc]

/-- What is between the quotes is plain but for its spaces. -/
theorem mem_innerOf {program : WorkflowProgram} {byte : UInt8} (h : byte ∈ innerOf program) :
    byte = space ∨ plain byte = true := by
  rcases mem_intercalate h with hspace | ⟨token, htoken, hbyte⟩
  · exact .inl (List.mem_singleton.mp hspace)
  · right
    rcases List.mem_cons.mp htoken with rfl | hmem
    · exact plain_literal (by decide +kernel) hbyte
    · obtain ⟨text, htext, rfl⟩ := List.mem_map.mp hmem
      exact plain_decision program.root text htext byte hbyte

theorem splitOn_innerOf (program : WorkflowProgram) :
    (innerOf program).splitOn space = bytesOf "v2" :: (decisionTokens program.root).map bytesOf := by
  refine List.splitOn_intercalate space (fun token htoken hspace => ?_) (by simp)
  have hplain : plain space = true := by
    rcases List.mem_cons.mp htoken with rfl | hmem
    · exact plain_literal (by decide +kernel) hspace
    · obtain ⟨text, htext, rfl⟩ := List.mem_map.mp hmem
      exact plain_decision program.root text htext space hspace
  exact absurd hplain (by decide)

/-- A program within the limits is read back from its line. -/
theorem parse_encodeLine {program : WorkflowProgram} (hfits : Fits program.root)
    (hfew : (decisionTokens program.root).length ≤ maxTokens) : parseEncoding (encodeLine program) = .ok program := by
  have hinner : ∀ byte ∈ innerOf program, byte ≠ newline ∧ byte ≠ quote ∧ byte ≠ backslash ∧
      (isAsciiGraphic byte || decide (byte = space)) = true := by
    intro byte hbyte
    rcases mem_innerOf hbyte with rfl | hplain
    · decide
    · simp only [plain, Bool.and_eq_true, bne_iff_ne] at hplain
      refine ⟨?_, hplain.1.2, hplain.2, by rw [hplain.1.1, Bool.true_or]⟩
      rintro rfl
      exact absurd hplain.1.1 (by decide)
  have hline : newline ∉ [quote] ++ (innerOf program ++ [quote]) := by
    simp only [List.mem_append, List.mem_singleton, not_or]
    exact ⟨by decide, fun hmem => (hinner _ hmem).1 rfl, by decide⟩
  have hquoted : (([quote] ++ (innerOf program ++ [quote])).dropPrefix? [quote]).bind (·.dropSuffix? [quote]) =
      some (innerOf program) := by
    rw [dropPrefix_eq_some.mpr rfl, Option.bind_some, dropSuffix_eq_some.mpr rfl]
  have hgraphic : ¬ (¬ (innerOf program).all (fun byte => isAsciiGraphic byte || decide (byte = space)) = true ∨
      backslash ∈ innerOf program ∨ quote ∈ innerOf program) := by
    simp only [not_or, not_not]
    refine ⟨List.all_eq_true.mpr fun byte hbyte => (hinner byte hbyte).2.2.2, ?_, ?_⟩
    · exact fun hmem => (hinner _ hmem).2.2.1 rfl
    · exact fun hmem => (hinner _ hmem).2.1 rfl
  have hread : readTokens 0 [] ((decisionTokens program.root).map bytesOf) = .ok [itemOf program.root] := by
    refine readTokens_ok.mpr ⟨read_decision hfits [], .inr ?_⟩
    rwa [List.length_map, Nat.zero_add]
  unfold parseEncoding
  simp only [bytesOf_encodeLine, dropSuffix_eq_some.mpr rfl, if_neg hline, hquoted, if_neg hgraphic, splitOn_innerOf,
    ne_eq, not_true_eq_false, if_false, hread, bind, Except.bind, intoDecision_itemOf]
  rfl

/-- A line that is accepted is the encoding of its program. -/
theorem eq_encodeLine {stdout : String} {program : WorkflowProgram} (h : parseEncoding stdout = .ok program) :
    stdout = encodeLine program ∧ (decisionTokens program.root).length ≤ maxTokens := by
  unfold parseEncoding at h
  split at h
  · cases h
  next line hline =>
  split at h
  · cases h
  split at h
  · cases h
  next inner hinner =>
  split at h
  · cases h
  split at h
  · cases h
  next version tokens hsplit =>
  split at h
  · cases h
  next hversion =>
  obtain ⟨stack, hread, h⟩ := bind_ok.mp h
  split at h
  · next root =>
      cases h
      obtain ⟨hfold, hfew⟩ := readTokens_ok.mp hread
      have htokens : tokens = (decisionTokens root.intoDecision).map bytesOf := postfix_step.eq_write hfold
      have hinnerOf : innerOf ⟨root.intoDecision⟩ = inner := by
        rw [innerOf, ← htokens, ← not_not.mp hversion, ← hsplit, List.intercalate_splitOn]
      obtain ⟨quoted, hquoted, hrest⟩ := Option.bind_eq_some_iff.mp hinner
      constructor
      · apply bytesOf_injective
        rw [bytesOf_encodeLine, hinnerOf, dropSuffix_eq_some.mp hline, dropPrefix_eq_some.mp hquoted,
          dropSuffix_eq_some.mp hrest]
      · have hlength := congrArg List.length htokens
        rw [List.length_map] at hlength
        show (decisionTokens root.intoDecision).length ≤ maxTokens
        rcases hfew with rfl | hfew
        · rw [← hlength]
          exact Nat.zero_le _
        · omega
  · cases h

/-! ### No panic -/

def Calm {α : Type} (parsed : Parsed α) : Prop := parsed ≠ .error .panicked

theorem Calm.bind {α β : Type} {first : Parsed α} {next : α → Parsed β} (hfirst : Calm first)
    (hnext : ∀ answer, Calm (next answer)) :
    Calm (first >>= next) := by
  cases first with
  | error error => exact fun h => hfirst (by cases h; rfl)
  | ok answer => exact hnext answer

theorem calm_encoding {α : Type} (message : String) : Calm (encoding message : Parsed α) := nofun

theorem calm_ok {α : Type} (answer : α) : Calm (.ok answer) := nofun

theorem calm_pairByte (first second : UInt8) : Calm (pairByte [first, second]) := by
  simp only [pairByte, List.getElem?_cons_zero, List.getElem?_cons_succ]
  cases digit first with
  | none => exact calm_ok _
  | some high => exact calm_ok _

/-- An even number of digits has a second one in each pair. -/
theorem calm_collect : ∀ {hex : Bytes}, hex.length % 2 = 0 → Calm (collect (chunks hex))
  | [], _ => calm_ok _
  | [last], h => by simp at h
  | first :: second :: rest, h => by
      rw [chunks, collect]
      have hrest : rest.length % 2 = 0 := by
        simp only [List.length_cons] at h
        omega
      refine (calm_pairByte first second).bind fun byte => ?_
      cases byte with
      | none => exact calm_ok _
      | some byte => exact (calm_collect hrest).bind fun _ => calm_ok _

theorem calm_unhex (hex : Bytes) : Calm (unhex hex) := by
  unfold unhex
  split
  · exact calm_encoding _
  · next heven =>
      refine (calm_collect (not_not.mp heven)).bind fun bytes => ?_
      split
      · exact calm_encoding _
      · split
        · exact calm_encoding _
        · exact calm_ok _

theorem calm_textsOf (texts : Bytes) : Calm (textsOf texts) := by
  unfold textsOf
  split
  · exact calm_encoding _
  · refine (calm_unhex _).bind fun name => (calm_unhex _).bind fun input => ?_
    split
    · exact calm_ok _
    · exact calm_encoding _

theorem calm_popDecision (stack : List Item) (token : String) : Calm (popDecision stack token) := by
  cases stack with
  | nil => exact calm_encoding _
  | cons item rest => exact calm_ok _

theorem calm_step (stack : List Item) (token : Bytes) : Calm (step stack token) := by
  unfold step
  split
  · exact calm_ok _
  split
  · exact calm_ok _
  split
  · exact calm_ok _
  split
  · split
    · exact (calm_popDecision _ _).bind fun _ => calm_ok _
    · exact calm_encoding _
  split
  · exact (calm_popDecision _ _).bind fun _ => (calm_popDecision _ _).bind fun _ => (calm_popDecision _ _).bind fun _ =>
      calm_ok _
  split
  · exact (calm_textsOf _).bind fun _ => calm_ok _
  split
  · exact (calm_textsOf _).bind fun _ => calm_ok _
  · exact calm_encoding _

theorem calm_readTokens (count : Nat) (stack : List Item) (tokens : List Bytes) :
    Calm (readTokens count stack tokens) := by
  induction tokens generalizing count stack with
  | nil => exact calm_ok _
  | cons token rest ih =>
      rw [readTokens]
      split
      · exact calm_encoding _
      · exact (calm_step stack token).bind fun next => ih (count + 1) next

theorem calm_parse (stdout : String) : Calm (parseEncoding stdout) := by
  unfold parseEncoding
  split
  · exact calm_encoding _
  split
  · exact calm_encoding _
  split
  · exact calm_encoding _
  split
  · exact calm_encoding _
  split
  · exact calm_encoding _
  split
  · exact calm_encoding _
  refine (calm_readTokens 0 [] _).bind fun stack => ?_
  split
  · exact calm_ok _
  · exact calm_encoding _

/-! ### How many tokens -/

mutual

/-- A decision's tokens are fewer than twice its decisions. -/
theorem length_decisionTokens : ∀ decision : Decision, (decisionTokens decision).length + 1 ≤ 2 * size decision
  | .tool _ _ | .spawnAgent _ _ | .complete | .fail => Nat.le_refl 2
  | .onCounter missing onZero other => by
      have hmissing := length_decisionTokens missing
      have hzero := length_decisionTokens onZero
      have hother := length_decisionTokens other
      simp only [decisionTokens, size, List.length_append, List.length_singleton]
      omega
  | .seq decisions => by
      have hdecisions := length_sequenceTokens decisions
      rw [decisionTokens, size]
      omega

theorem length_sequenceTokens :
    ∀ decisions : List Decision, (sequenceTokens decisions).length ≤ 2 * sizeSeq decisions + 1
  | [] => Nat.le_refl 1
  | head :: rest => by
      have hhead := length_decisionTokens head
      have hrest := length_sequenceTokens rest
      simp only [sequenceTokens, sizeSeq, List.length_append, List.length_singleton]
      omega

end

/-- A program within the limits is read back from its line, and a line that is accepted is the encoding of its
program; parsing does not panic; and a program of at most 1024 decisions, as the script frontends build with no
sequence empty, has at most 2048 tokens. -/
theorem parse_encode :
    (∀ program : WorkflowProgram, Fits program.root → (decisionTokens program.root).length ≤ maxTokens →
      parseEncoding (encodeLine program) = .ok program) ∧
    (∀ stdout program, parseEncoding stdout = .ok program → stdout = encodeLine program) ∧
    (∀ stdout, parseEncoding stdout ≠ .error .panicked) ∧
    (∀ program : WorkflowProgram, size program.root ≤ Frontend.maxDecisions →
      (decisionTokens program.root).length ≤ maxTokens) ∧
    (∀ calls evaluated program, Rhai.compile calls evaluated = .ok program →
      size program.root ≤ Frontend.maxDecisions ∧ Full program.root) ∧
    ∀ calls evaluated program, Js.compile calls evaluated = .ok program →
      size program.root ≤ Frontend.maxDecisions ∧ Full program.root := by
  refine ⟨fun program => parse_encodeLine, fun stdout program h => (eq_encodeLine h).1, calm_parse,
    fun program hsize => ?_, fun calls evaluated program h => Frontend.bounded_compiled (Rhai.bounded calls) h,
    fun calls evaluated program h => Frontend.bounded_compiled (Js.bounded calls) h⟩
  have htokens := length_decisionTokens program.root
  have hmost : 2 * Frontend.maxDecisions ≤ maxTokens := by decide
  omega

end Bend
end Gol
