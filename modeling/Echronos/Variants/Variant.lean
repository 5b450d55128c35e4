import Echronos.Variants.RoundRobin
import Echronos.Variants.PrioInherit
import Echronos.Variants.PrioCeiling

/-! # The variants: Rigel, Kochab and Phact -/

namespace Echronos

/-- A variant that blocks tasks, with the scheduling tables its `configure` generates. -/
inductive Variant (c : Config)
  | rigel
  | kochab
  | phact (tables : CeilingTables c.tasks c.mutexes)

/-- The scheduler component a variant is built with. -/
def Variant.sched {c : Config} : Variant c → Sched c.tasks c.mutexes
  | .rigel => rigelSched c.tasks c.mutexes c.tasks_pos
  | .kochab => kochabSched c.tasks c.mutexes
  | .phact tables => phactSched tables c.tasks_pos

end Echronos
