/-
# `OData.Number.Power` — powers

A power is that of the core library everywhere here, so that what a definition says does not depend
on which algebra is imported beside it.
-/
namespace OData

attribute [scoped instance (20000)] instPowNat

attribute [default_instance 20000] instPowNat

end OData
