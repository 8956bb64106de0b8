import ShardKeys.Script.Framing
import ShardKeys.Script.Statement

/-!
Whole scripts for a schema. A plan is put into statements as a whole before it is framed, so that
there is either a complete script or none.
-/

namespace ShardKeys

structure ScriptStyle where
  dialect : Dialect := {}
  framing : Framing := {}
  deriving DecidableEq

namespace ScriptStyle

def ofDialect (d : Dialect) : ScriptStyle where
  dialect := d
  framing := .ofDialect d

/-- The framed script. What follows a change of the schema has no place after a drop. -/
def frame (style : ScriptStyle) (mode : ScriptMode) (statements : List String) : Script :=
  let framing := match mode with
    | .drop => style.framing.bare
    | .create | .update => style.framing
  let script := framing.script mode statements
  { script with events := .scriptGenerated mode statements.length :: script.events }

def planScript (style : ScriptStyle) (g : Schema) (mode : ScriptMode) (plan : List Change) :
    Except UnsupportedOperation Script :=
  (style.dialect.statements g plan).map (style.frame mode)

def createScript (style : ScriptStyle) (g : Schema) : Except UnsupportedOperation Script :=
  style.planScript g .create g.createPlan

/-- Drops every object of the schema. -/
def dropScript (style : ScriptStyle) (g : Schema) : Except UnsupportedOperation Script :=
  style.planScript g .drop g.dropPlan

/-- Drops the objects of the schema that exist. -/
def dropScriptFor (style : ScriptStyle) (g : Schema) (e : LiveSchema) :
    Except UnsupportedOperation Script :=
  style.planScript g .drop (g.dropPlanFor e)

/-- Creates what is missing. -/
def updateScript (style : ScriptStyle) (g : Schema) (e : LiveSchema) :
    Except UnsupportedOperation Script := do
  style.planScript g .update (← g.updatePlan style.dialect e)

/-- Drops what exists and then creates everything. The log tells of the creation first. -/
def recreateScript (style : ScriptStyle) (g : Schema) (e : LiveSchema) :
    Except UnsupportedOperation Script := do
  let create ← style.createScript g
  let drop ← style.dropScriptFor g e
  return { lines := drop.lines ++ create.lines, events := create.events ++ drop.events }

end ScriptStyle

end ShardKeys
