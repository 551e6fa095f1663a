import Makewright.Decimal.Numeral
import Makewright.Shell.Machine

/-!
# Commands of a shell

The commands that a script can call: printing, conditions, directories and files, and ending the
shell with a status or by a signal. A command gives its two outputs and its status, and may change
what the shell holds.
-/

set_option autoImplicit false

namespace Makewright.Shell

/-- The character behind a one-letter escape. -/
def simpleEscape? (c : Char) : Option Char :=
  [('n', '\n'), ('t', '\t'), ('r', '\r'), ('\\', '\\'), ('a', '\x07'), ('b', '\x08'), ('f', '\x0c'),
   ('v', '\x0b'), ('"', '"'), ('\'', '\'')].lookup c

/-- The byte of at most `count` octal digits, and the characters behind them. -/
def octalByte (count : Nat) (s : List Char) : UInt8 × List Char :=
  let digits := (s.take count).takeWhile fun c => '0' ≤ c && c ≤ '7'
  let n := digits.foldl (fun n c => n * 8 + (c.toNat - '0'.toNat)) 0
  (UInt8.ofNat n, s.drop digits.length)

/-- The bytes of a text with its escapes decoded. Octal escapes have a zero in front if `zero` says
so. An escape for the end cuts the text off; the answer says whether there was one. -/
def unescape (zero : Bool) : Nat → List Char → List UInt8 × Bool
  | 0, _ => ([], false)
  | _ + 1, [] => ([], false)
  | fuel + 1, '\\' :: c :: rest =>
    let more (front : List UInt8) (rest : List Char) : List UInt8 × Bool :=
      let (bytes, cut) := unescape zero fuel rest
      (front ++ bytes, cut)
    if c = 'c' then ([], true)
    else if zero && c = '0' then
      let (byte, rest) := octalByte 3 rest
      more [byte] rest
    else if !zero && '0' ≤ c && c ≤ '7' then
      let (byte, rest) := octalByte 3 (c :: rest)
      more [byte] rest
    else
      match simpleEscape? c with
      | some decoded => more (bytesOf (String.ofList [decoded])) rest
      | none => more (bytesOf (String.ofList ['\\', c])) rest
  | fuel + 1, c :: rest =>
    let (bytes, cut) := unescape zero fuel rest
    (bytesOf (String.ofList [c]) ++ bytes, cut)

/-- Print the arguments with blanks between them. -/
def echo (args : List String) : List UInt8 :=
  let (lineFeed, args) : Bool × List String :=
    match args with
    | "-n" :: rest => (false, rest)
    | _ => (true, args)
  let text := (" ".intercalate args).toList
  let (bytes, cut) := unescape true (text.length + 1) text
  bytes ++ if lineFeed && !cut then [10] else []

/-- Fill a format once; the answer holds the arguments left over. -/
def fillFormat : Nat → List Char → List String → List UInt8 × List String
  | 0, _, args => ([], args)
  | _ + 1, [], args => ([], args)
  | fuel + 1, '%' :: c :: rest, args =>
    let more (front : List UInt8) (args : List String) : List UInt8 × List String :=
      let (bytes, args) := fillFormat fuel rest args
      (front ++ bytes, args)
    let first := args.headD ""
    if c = '%' then more [37] args
    else if c = 's' then more (bytesOf first) (args.drop 1)
    else if c = 'c' then more ((bytesOf first).take 1) (args.drop 1)
    else if c = 'b' then more (unescape true (first.length + 1) first.toList).1 (args.drop 1)
    else if c = 'd' || c = 'i' then
      let n := ((Numeral.integer? 10 first.toList).map Prod.fst).getD 0
      more (bytesOf (toString n)) (args.drop 1)
    else more (bytesOf (String.ofList ['%', c])) args
  | fuel + 1, '\\' :: rest, args =>
    let chunk := rest.takeWhile (· != '%')
    let (front, _) := unescape false (chunk.length + 2) ('\\' :: chunk)
    let (bytes, args) := fillFormat fuel (rest.drop chunk.length) args
    (front ++ bytes, args)
  | fuel + 1, c :: rest, args =>
    let (bytes, args) := fillFormat fuel rest args
    (bytesOf (String.ofList [c]) ++ bytes, args)

/-- Fill a format as often as there are arguments for it. -/
def printf : Nat → List Char → List String → List UInt8
  | 0, _, _ => []
  | fuel + 1, format, args =>
    let (bytes, left) := fillFormat (format.length + 1) format args
    if left.isEmpty || left.length = args.length then bytes
    else bytes ++ printf fuel format left

/-- The numbers of signals that end a process, by their names. -/
def signals : List (String × Nat) :=
  [("HUP", 1), ("INT", 2), ("QUIT", 3), ("ILL", 4), ("TRAP", 5), ("ABRT", 6), ("BUS", 7),
   ("FPE", 8), ("KILL", 9), ("USR1", 10), ("SEGV", 11), ("USR2", 12), ("PIPE", 13), ("ALRM", 14),
   ("TERM", 15)]

/-- The number of a signal given by its name or its number. -/
def signal? (text : String) : Option Nat :=
  match signals.lookup text with
  | some n => some n
  | none => (Numeral.digits? 10 text.toList).map Prod.fst

/-- The signal and the processes that the arguments name. -/
def killArguments (args : List String) : Option (Nat × List String) :=
  match args with
  | "-s" :: name :: rest => (signal? name).map (·, rest)
  | first :: rest =>
    match first.toList with
    | '-' :: name => (signal? (String.ofList name)).map (·, rest)
    | _ => some (15, args)
  | [] => none

/-- The names in a directory, in order, without those that start with a dot. -/
def listing (files : FileTree) (l : Location) : List String :=
  match files.walk l.parts with
  | .ok place =>
    let names := files.entries.filterMap fun (other, _) =>
      if other.dropLast == place && other.length = place.length + 1 then other.getLast? else none
    (names.filter fun name => name.toList.head? != some '.').mergeSort (fun a b => a < b || a == b)
  | .error _ => []

/-- A command that succeeds with an output. -/
def Effect.success (stdout : List UInt8) : Effect := ⟨stdout, [], 0⟩

/-- A command that fails with a message. -/
def Effect.failure (status : Nat) (message : String) : Effect := ⟨[], bytesOf message, status⟩

/-- The texts of files one behind the other. -/
def concatenate (m : Machine) (args : List String) : Effect :=
  args.foldl (fun effect name =>
    match m.files.read (m.cwd.child name) with
    | .ok text => { effect with stdout := effect.stdout ++ bytesOf text }
    | .error _ =>
      { effect with
        stderr := effect.stderr ++ bytesOf ("cat: " ++ name ++ ": No such file or directory\n")
        status := 1 }) (.success [])

/-- The number that an argument gives, or else the present status. -/
def exitStatus (m : Machine) (args : List String) : Nat :=
  match args with
  | first :: _ => ((Numeral.digits? 10 first.toList).map fun (n, _) => n % 256).getD 2
  | [] => m.status

/-- Compare two numbers as an operator says. -/
def compareNumbers? (operator : String) (a b : Int) : Option Bool :=
  match operator with
  | "-eq" => some (a == b)
  | "-ne" => some (a != b)
  | "-lt" => some (a < b)
  | "-le" => some (a ≤ b)
  | "-gt" => some (a > b)
  | "-ge" => some (a ≥ b)
  | _ => none

/-- A condition on texts, numbers or files; a condition that cannot be read has no value. -/
def condition? (m : Machine) : List String → Option Bool
  | [] => some false
  | [text] => some (!text.isEmpty)
  | [a, "=", b] => some (a == b)
  | [a, "!=", b] => some (a != b)
  | "!" :: rest => (condition? m rest).map (!·)
  | [operator, text] =>
    let kind := m.files.standing? ((m.files.walk (m.cwd.child text).parts).toOption.getD [])
    let isThere := (m.files.walk (m.cwd.child text).parts).isOk
    match operator with
    | "-n" => some (!text.isEmpty)
    | "-z" => some text.isEmpty
    | "-e" => some isThere
    | "-d" => some (isThere && kind == some .directory)
    | "-f" => some (isThere && kind != some .directory)
    | _ => none
  | [a, operator, b] =>
    match Numeral.integer? 10 a.toList, Numeral.integer? 10 b.toList with
    | some (a, _), some (b, _) => compareNumbers? operator a b
    | _, _ => none
  | _ => none

/-- Whether a condition holds, as the status of a command. -/
def check (m : Machine) (name : String) (args : List String) : Effect :=
  match condition? m args with
  | some true => .success []
  | some false => ⟨[], [], 1⟩
  | none => .failure 2 ("/bin/sh: 1: " ++ name ++ ": unexpected operator\n")

/-- Run a command by its name. -/
def perform (m : Machine) (name : String) (args : List String) : Effect × Machine :=
  match name with
  | "echo" => (.success (echo args), m)
  | "printf" =>
    (.success (printf (args.length + 1) (args.headD "").toList (args.drop 1)), m)
  | "pwd" => (.success (bytesOf (m.cwd.render ++ "\n")), m)
  | ":" | "true" | "sleep" | "wait" => (.success [], m)
  | "false" => (⟨[], [], 1⟩, m)
  | "exit" =>
    let status := exitStatus m args
    (⟨[], [], status⟩, { m with ending := some status })
  | "kill" =>
    match killArguments args with
    | some (signal, processes) =>
      if ownProcess ∈ processes && signal ≠ 0 then
        (.success [], { m with ending := some (-(signal : Int)) })
      else (.success [], m)
    | none => (.failure 2 "kill: no process\n", m)
  | "cd" =>
    let goal := m.cwd.child (args.headD "")
    match m.files.walk goal.parts with
    | .ok place => (.success [], { m with cwd := ⟨1, place⟩ })
    | .error _ =>
      (.failure 2 ("/bin/sh: 1: cd: can't cd to " ++ args.headD "" ++ "\n"), m)
  | "ls" =>
    let names := listing m.files (m.cwd.child (args.headD "."))
    (.success (bytesOf ("".intercalate (names.map (· ++ "\n")))), m)
  | "cat" => (concatenate m args, m)
  | "test" => (check m name args, m)
  | "[" =>
    if args.getLast? = some "]" then (check m name args.dropLast, m)
    else (.failure 2 "/bin/sh: 1: [: missing ]\n", m)
  | _ => (.failure 127 ("/bin/sh: 1: " ++ name ++ ": not found\n"), m)

end Makewright.Shell
