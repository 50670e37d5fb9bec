import Howlinux.App.Application

open Bytes

namespace Howlinux

-- `terminalColorEnabled` of standard output, which is a terminal or not.
def terminalColorEnabled (getenv : Bytes → Option Bytes) (isatty : Bool) : Bool :=
  let noColor := getenv (ascii "NO_COLOR")
  match getenv (ascii "TERM") with
  | none      => false
  | some term =>
    if noColor.any (!·.isEmpty) || term.isEmpty || term == ascii "dumb" then false else isatty

-- A process as the operating system starts it. `main` replaces what `machine` says about the paths, the
-- variables and the terminal.
structure Process (K : Type) where
  argv        : List Bytes
  currentPath : Except Bytes Bytes
  selfExe     : Option Bytes
  getenv      : Bytes → Option Bytes
  isatty      : Bool
  machine     : Environment K

namespace Process

section

variable {K : Type} (process : Process K)

def arguments : List Bytes :=
  process.argv.drop 1

def programName : Bytes :=
  process.argv.headD (ascii "howlinux")

-- The target of the link to the executable, or else the name that the program was called by.
def executablePath : Bytes :=
  match process.selfExe with
  | none        => process.programName
  | some target => if target.isEmpty then process.programName else target

def environment (executablePath currentDirectory : Bytes) : Environment K :=
  { process.machine with
    executablePath
    currentDirectory
    howlinuxKnowledge    := process.getenv (ascii "HOWLINUX_KNOWLEDGE")
    terminalColorEnabled := terminalColorEnabled process.getenv process.isatty }

end

variable {K : Type} [Zero K] [Add K] [Sub K] [Mul K] [Div K] [Min K] [LT K] [DecidableLT K] [LE K]
  [DecidableLE K] [DecidableEq K] [NatCast K] [OfScientific K] (process : Process K)

def main : Outcome :=
  match process.currentPath with
  | .ok currentDirectory =>
    (process.environment process.executablePath currentDirectory).runApplication process.arguments
  | .error message =>
    let informs : Bool := match parseCommandLine process.arguments with
      | .ok options => options.command == .help || options.command == .version
      | .error _    => false
    if informs then
      (process.environment process.programName (ascii ".")).runApplication process.arguments
    else
      { error    := row "Configuration error: cannot determine current directory: " message
        exitCode := kConfigurationError }

end Process

end Howlinux
