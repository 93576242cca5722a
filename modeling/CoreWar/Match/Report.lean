import CoreWar.Json.Quoted
import CoreWar.Match.Game

/-!
# Reports

The results of a match are shown as a JSON object, one field a line, and two
spaces further in for each level.
-/

namespace CoreWar

/-- The fields of a player's results, with the text of their values. -/
def PlayerReport.fields (p : PlayerReport) : List (String × String) :=
  [("pid", toString p.pid.toNat),
    ("name", Json.quote p.name),
    ("score", toString p.score),
    ("killed_threads", toString p.killedThreads),
    ("killed_processes", toString p.killedProcesses),
    ("owned_ram", toString p.ownedCells),
    ("threads", toString p.threads)]

namespace Report

/-- The line breaks between the items of an object or an array. -/
def separator : String := ",\n"

/-- A field of an object, indented. -/
def fieldText (indent : String) (f : String × String) : String :=
  s!"{indent}\"{f.1}\": {f.2}"

/-- The text of a player's results. -/
def playerText (p : PlayerReport) : String :=
  "    \x7b\n" ++ separator.intercalate (p.fields.map (fieldText "      ")) ++ "\n    \x7d"

/-- The text of a report. -/
def text (r : Report) : String :=
  "\x7b\n"
    ++ separator.intercalate
      [fieldText "  " ("cycles", toString r.cycles),
        fieldText "  " ("survivors", toString r.survivors),
        fieldText "  " ("players", "[\n" ++ separator.intercalate (r.players.map playerText)
          ++ "\n  ]")]
    ++ "\n\x7d\n"

end Report
end CoreWar
