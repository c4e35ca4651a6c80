import ArrowFree.Text.DecimalDigit

/-!
# Arguments of the command line

Options may stand before and behind the one operand. A long option may be cut short as long as it
is the only one that begins so, and may have its value behind `=`; short options may share a dash.
All that follows `--` is operands.
-/

namespace ArrowFree.CommandLine

/-- An option without a value. -/
inductive Switch where
  | help
  | strict
  | dump
  | verbose
deriving DecidableEq, Repr

/-- An option with a value. -/
inductive Setting where
  | output
  | sourceFileName
  | sourceMapName
deriving DecidableEq, Repr

inductive Choice where
  | switch (s : Switch)
  | setting (s : Setting)
deriving DecidableEq, Repr

/-- What the arguments ask for. -/
structure Options where
  file : Option Text := none
  output : Option Text := none
  sourceFileName : Option Text := none
  sourceMapName : Option Text := none
  strict : Bool := false
  dump : Bool := false
  verbose : Bool := false
deriving DecidableEq, Repr

/-- A run, or an exit right away: status 0 after help, status 2 after wrong usage. -/
inductive Invocation where
  | run (options : Options)
  | exit (status : Nat)
deriving DecidableEq, Repr

def choices : List (Text × Choice) :=
  [("-h", .switch .help), ("--help", .switch .help),
   ("-o", .setting .output), ("--output", .setting .output),
   ("--source-file-name", .setting .sourceFileName),
   ("--source-map-name", .setting .sourceMapName),
   ("--strict", .switch .strict),
   ("--dump-ast", .switch .dump),
   ("-v", .switch .verbose), ("--verbose", .switch .verbose)]

def choice? (name : Text) : Option Choice := choices.lookup name

/-! ## Classes of arguments -/

/-- A value that is attached to its option. -/
structure Attached where
  value : Text
  /-- It stands behind `=`. -/
  marked : Bool
deriving DecidableEq, Repr

/-- An option as it is written: with one dash or two, with or without an attached value. -/
structure Written where
  choice : Choice
  short : Bool
  attached : Option Attached := none
deriving DecidableEq, Repr

inductive Argument where
  | operand (t : Text)
  /-- The `--` after which no option is recognised. -/
  | divider
  | option (w : Written)
  /-- Looks like an option but is none. -/
  | unknown
deriving DecidableEq, Repr

/-- A minus sign and a number; a line end may follow. -/
def isNegativeNumber (t : Text) : Bool :=
  match t with
  | [] => false
  | c :: t =>
    let t := if t.getLast? = some CodePoint.newline then t.dropLast else t
    let whole := t.takeWhile CodePoint.isDecimalDigit
    let rest := t.dropWhile CodePoint.isDecimalDigit
    c = '-' &&
      match rest with
      | [] => ! whole.isEmpty
      | d :: fraction => d = '.' && ! fraction.isEmpty && fraction.all CodePoint.isDecimalDigit

/-- A text cut at its first `=`. -/
def cutAtEquals (t : Text) : Text × Option Text :=
  let inName (c : CodePoint) : Bool := c ≠ '='
  match t.dropWhile inName with
  | [] => (t, none)
  | _ :: value => (t.takeWhile inName, some value)

def isLong (t : Text) : Bool := (t.drop 1).head? = some '-'

/-- The options that an argument may stand for when it is none as it is. -/
def candidates (t : Text) : List Written :=
  if isLong t then
    let (name, value) := cutAtEquals t
    (choices.filter fun (n, _) => name.isPrefixOf n).map fun (n, c) =>
      ⟨c, ! isLong n, value.map fun v => ⟨v, true⟩⟩
  else
    choices.filterMap fun (n, c) =>
      if n = t.take 2 then some ⟨c, true, some ⟨t.drop 2, false⟩⟩
      else if t.isPrefixOf n then some ⟨c, ! isLong n, none⟩
      else none

/-- The class of an argument before any `--`; none if it stands for several options. -/
def classify (t : Text) : Option Argument :=
  if t.head? ≠ some '-' then some (.operand t)
  else match choice? t with
    | some c => some (.option ⟨c, ! isLong t, none⟩)
    | none =>
      if t.length = 1 then some (.operand t)
      else
        let (name, value) := cutAtEquals t
        match value, choice? name with
        | some v, some c => some (.option ⟨c, ! isLong name, some ⟨v, true⟩⟩)
        | _, _ =>
          match candidates t with
          | [w] => some (.option w)
          | _ :: _ => none
          | [] =>
            if isNegativeNumber t || t.contains (' ' : CodePoint) then some (.operand t)
            else some .unknown

def classifyAll : List Text → Option (List Argument)
  | [] => some []
  | t :: ts =>
    if t = "--" then some (.divider :: ts.map .operand)
    else do
      let a ← classify t
      let rest ← classifyAll ts
      return a :: rest

/-! ## Reading options -/

/-- What an option with its attached text comes to: switches, perhaps a setting at the end whose
value may be missing, and perhaps letters that mean nothing. -/
structure Cluster where
  switches : List Switch := []
  setting : Option (Setting × Option Text) := none
  stray : Bool := false
deriving DecidableEq, Repr

/-- Letters behind a switch with one dash are further options. -/
def readLetters : Text → Option Cluster
  | [] => some {}
  | c :: rest =>
    match choice? ['-', c] with
    | none => some { stray := true }
    | some (.setting g) =>
      match rest with
      | [] => some { setting := some (g, none) }
      | d :: value => some { setting := some (g, some (if d = '=' then value else d :: value)) }
    | some (.switch s) =>
      match rest with
      | [] => some { switches := [s] }
      | d :: _ =>
        if d = '=' || d = '-' then none
        else (readLetters rest).map fun k => { k with switches := s :: k.switches }

/-- A switch takes no value. -/
def Written.cluster (w : Written) : Option Cluster :=
  match w.choice, w.attached with
  | .setting g, attached => some { setting := some (g, attached.map (·.value)) }
  | .switch s, none => some { switches := [s] }
  | .switch s, some a =>
    if w.short && ! a.marked && ! a.value.isEmpty && a.value.head? ≠ some '-' then
      (readLetters a.value).map fun k => { k with switches := s :: k.switches }
    else none

def Options.set (o : Options) (value : Text) : Setting → Options
  | .output => { o with output := some value }
  | .sourceFileName => { o with sourceFileName := some value }
  | .sourceMapName => { o with sourceMapName := some value }

/-- Help ends the reading. -/
def Options.flip (o : Options) : Switch → Option Options
  | .help => none
  | .strict => some { o with strict := true }
  | .dump => some { o with dump := true }
  | .verbose => some { o with verbose := true }

/-- The reading so far. -/
structure Reading where
  options : Options := {}
  /-- The operand has been read. -/
  filled : Bool := false
  /-- Something was left over. -/
  leftover : Bool := false
deriving DecidableEq, Repr

def Reading.result (r : Reading) : Invocation := if r.leftover then .exit 2 else .run r.options

def isOption : Argument → Bool
  | .option _ | .unknown => true
  | _ => false

/-- The operands at the end. Dividers around the operand belong to it. -/
def readLast (r : Reading) (as : List Argument) : Reading :=
  if r.filled then { r with leftover := r.leftover || ! as.isEmpty }
  else
    let as := as.dropWhile (· = .divider)
    match as with
    | .operand t :: rest =>
      let rest := rest.dropWhile (· = .divider)
      { options := { r.options with file := some t }, filled := true,
        leftover := r.leftover || ! rest.isEmpty }
    | as => { r with leftover := r.leftover || ! as.isEmpty }

/-- Reads arguments from left to right. -/
def readFrom (r : Reading) : List Argument → Invocation
  | [] => r.result
  | .option w :: rest =>
    match w.cluster with
    | none => .exit 2
    | some k =>
      match k.setting, rest with
      | some (g, none), .operand value :: rest' =>
        match k.switches.foldlM Options.flip r.options with
        | none => .exit 0
        | some o => readFrom { r with options := o.set value g } rest'
      | some (_, none), _ => .exit 2
      | setting, rest =>
        match k.switches.foldlM Options.flip r.options with
        | none => .exit 0
        | some o =>
          let o := match setting with
            | some (g, some value) => o.set value g
            | _ => o
          readFrom { r with options := o, leftover := r.leftover || k.stray } rest
  | .unknown :: rest => readFrom { r with leftover := true } rest
  | a :: rest =>
    if rest.any isOption then
      match a, r.filled with
      | .operand t, false =>
        readFrom { r with options := { r.options with file := some t }, filled := true } rest
      | _, _ => readFrom { r with leftover := true } rest
    else (readLast r (a :: rest)).result

/-- What a command line asks for. -/
def Invocation.ofArguments (args : List Text) : Invocation :=
  match classifyAll args with
  | none => .exit 2
  | some as => readFrom {} as

end ArrowFree.CommandLine
