/-! The year that a point in time falls into. -/
namespace Nasm64.CommandLine.Calendar

def secondsPerDay : Int := 86400

/-- Days of a cycle of four hundred years, after which the calendar repeats. -/
def daysPerCycle : Int := 146097

/-- The year of a day that is counted from the first of March of the year zero. Years start in March,
so that a leap day is the last of them. -/
def marchYear (day : Int) : Int :=
  let cycle := day.fdiv daysPerCycle
  let rest := day - cycle * daysPerCycle
  (rest - rest / 1460 + rest / 36524 - rest / 146096) / 365 + 400 * cycle

def marchStart (year : Int) : Int := 365 * year + year.fdiv 4 - year.fdiv 100 + year.fdiv 400

/-- The year of a number of seconds since the start of 1970. January and February, which come after
306 days of March to December, belong to the next year. -/
def yearOfSeconds (seconds : Int) : Int :=
  let day := seconds.fdiv secondsPerDay + 719468
  let year := marchYear day
  if day - marchStart year < 306 then year else year + 1

end Nasm64.CommandLine.Calendar
