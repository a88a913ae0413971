import GridRobot.Session
import GridRobot.Text.Fraction

/-!
# The command line

The arguments of the program: the file to step through, and options in any order before and behind it. An option's value is the next
argument, or stands behind an equals sign.
-/

namespace GridRobot

open Text

namespace CommandLine

/-- What has been read of the arguments. -/
structure Draft where
  file : Option String
  options : Options

/-- The options without any argument. -/
def Draft.blank : Draft where
  file := none
  options :=
    { file := ""
      assembly := false
      level := none
      random := none
      density := 0.25
      entry := none
      list := false
      cycles := 5000 }

/-- How the program is called. -/
def usage : String :=
  "usage: FILE [--asm] [--level FILE | --random SEED [--density SHARE]] [--entry NAME] [--list] [--cycles COUNT]"

/-- A value of an option, or what is wrong with it. -/
def valueOf {α : Type} (option text : String) (read : List Char → Option α) : Except String α :=
  match read text.toList with
  | some a => .ok a
  | none => .error ("invalid value " ++ text ++ " for " ++ option)

/-- Takes in an option that has a value; there is none if the option is not known. -/
def Draft.set (d : Draft) (option value : String) : Option (Except String Draft) :=
  let o := d.options
  match option with
  | "--level" => some (.ok { d with options := { o with level := some value } })
  | "--random" => some <| (valueOf option value unsigned?).map
      fun seed => { d with options := { o with random := some (UInt64.ofNat seed) } }
  | "--density" => some <| (valueOf option value fraction?).map fun density => { d with options := { o with density } }
  | "--entry" => some (.ok { d with options := { o with entry := some value } })
  | "--cycles" => some <| (valueOf option value unsigned?).map fun cycles => { d with options := { o with cycles } }
  | _ => none

/-- The part of an argument before its first equals sign and the part behind it. -/
def splitValue (argument : String) : Option (String × String) :=
  let before := argument.toList.takeWhile (· != '=')
  match argument.toList.dropWhile (· != '=') with
  | _ :: value => some (String.ofList before, String.ofList value)
  | [] => none

/-- Takes in an argument that is no option. -/
def Draft.addFile (d : Draft) (argument : String) : Except String Draft :=
  match d.file with
  | none => .ok { d with file := some argument }
  | some _ => .error ("unexpected argument " ++ argument)

/-- Takes in the arguments one after the other. -/
def Draft.read (d : Draft) : List String → Except String Draft
  | [] => .ok d
  | "--asm" :: rest => { d with options := { d.options with assembly := true } }.read rest
  | "--list" :: rest => { d with options := { d.options with list := true } }.read rest
  | argument :: rest =>
    if "--".toList.isPrefixOf argument.toList then
      match splitValue argument with
      | some (option, value) =>
        match d.set option value with
        | some result => result.bind (fun d => d.read rest)
        | none => .error ("unexpected argument " ++ argument)
      | none =>
        match rest with
        | value :: rest =>
          match d.set argument value with
          | some result => result.bind (fun d => d.read rest)
          | none => .error ("unexpected argument " ++ argument)
        | [] => .error ("unexpected argument " ++ argument)
    else (d.addFile argument).bind (fun d => d.read rest)

/-- The options that arguments give. A file is needed, and a level is read or scattered, not both. -/
def parse (arguments : List String) : Except String Options := do
  let d ← Draft.blank.read arguments
  if d.options.level.isSome && d.options.random.isSome then
    throw "--random cannot be used with --level"
  match d.file with
  | some file => return { d.options with file }
  | none => throw "no file is given"

end CommandLine

end GridRobot
