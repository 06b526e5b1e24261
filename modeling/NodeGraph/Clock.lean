import NodeGraph.Binary64.Rounding

/-! Readings of the wall clock in milliseconds since 1970. -/
namespace NodeGraph.Clock

/-- Clocks before 1970 are read as zero. -/
def now (clock : Int) : Int :=
  max clock 0

/-- The time that the database stamps on an event. The clock is taken as a Julian day number and
back, each step in double precision, and the result is cut toward zero. -/
def eventTime (clock : Int) : Int :=
  let days := Binary64.round ((clock + 210866760000000 : Int) / 86400000)
  let sinceEpoch := Binary64.round (days - 4881175 / 2)
  let millis := Binary64.round (sinceEpoch * 86400000)
  Int.tdiv millis.num millis.den

/-- An integer brought into the signed 64-bit range by dropping its high bits. -/
def wrap64 (n : Int) : Int :=
  Int.bmod n UInt64.size

/-- The point in time that lies a duration after another, in 64-bit arithmetic. -/
def after (start duration : Int) : Int :=
  wrap64 (start + wrap64 duration)

/-- The point in time that lies a duration before another, in 64-bit arithmetic. -/
def before (start duration : Int) : Int :=
  wrap64 (start - wrap64 duration)

end NodeGraph.Clock
