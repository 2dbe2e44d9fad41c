import Retrace.CommandLine
import Retrace.Viewer.App

/-!
# The program

Reads the files that a command line names, prints what the library answers and sets the exit code. A
session to view is drawn as plain rows of text, and every line of the input names the keys to press
next, separated by spaces.
-/

namespace Retrace.Main

open Viewer

/-- The contents of a file, if it can be read as text. -/
def readText (path : String) : IO (Option String) := do
  try return some (← IO.FS.readFile path)
  catch _ => return none

/-- What a command line does. -/
def answer (arguments : List String) : IO Outcome := do
  match CommandLine.parse? arguments with
  | some (.replay a) =>
    let config ←
      match a.config with
      | some path => readText path
      | none => pure none
    return a.answer config (← readText a.trace)
  | _ => return CommandLine.answer arguments fun _ => none

/-- The width of the screen. -/
def screenWidth : Nat := 120

/-- The height of the screen. -/
def screenHeight : Nat := 41

/-- What the cells of a canvas show, a line for each row. -/
def canvasText (canvas : Canvas) : String :=
  String.join (canvas.map fun row => String.join (row.map Prod.fst) ++ "\n")

/-- The keys that a line of input names. -/
def keysOf (line : String) : List Key :=
  (Text.words line.toList).filterMap fun name => Key.ofName? (String.ofList name)

/-- Draws the viewer and presses the keys of the next line, until it quits or the input ends. -/
partial def view (input output : IO.FS.Stream) (a : App) : IO Unit := do
  let (a, canvas) := a.draw screenWidth screenHeight
  output.putStr (canvasText canvas)
  output.flush
  if a.quit then return
  let line ← input.getLine
  if line.isEmpty then return
  view input output ((keysOf line).foldl App.press a)

/-- Answers a command line. -/
def run (arguments : List String) : IO UInt32 := do
  match ← answer arguments with
  | .exit code text complaint =>
    (← IO.getStdout).putStr text
    if let some reason := complaint then (← IO.getStderr).putStrLn reason
    return .ofNat code
  | .view session =>
    view (← IO.getStdin) (← IO.getStdout) (App.new session)
    return 0

end Retrace.Main

def main (arguments : List String) : IO UInt32 := Retrace.Main.run arguments
