import SearchPipeline.Token.Kind

namespace SearchPipeline.Keyword

-- Commands that may open a pipeline.
def openingCommands : List String :=
  ["search", "inputlookup", "inputcsv", "tstats", "mstats", "datamodel", "from", "pivot",
   "makeresults", "metadata", "metasearch", "multisearch", "rest", "dbinspect", "eventcount",
   "loadjob", "savedsearch", "gentimes"]

-- Names that are a command at the head of a stage and a function before an open parenthesis.
def commandsAndFunctions : List String :=
  ["lookup", "replace", "spath"]

-- Commands of the stages behind a `|`.
def commands : List String :=
  ["eval", "stats", "where", "table", "fields", "rename", "sort", "head", "tail", "dedup", "rex",
   "regex", "append", "appendcols", "appendpipe", "join", "top", "rare", "chart", "timechart",
   "eventstats", "streamstats", "transaction", "fillnull", "bin", "bucket", "convert",
   "iplocation", "geostats", "outputlookup", "outputcsv", "collect", "fieldformat", "addtotals",
   "addinfo", "mvexpand", "makemv", "reverse", "uniq", "format", "return", "union", "xyseries",
   "untable", "foreach", "map", "delete", "predict", "cluster", "sendemail"]

-- Search modifiers that are also functions.
def modifiersAndFunctions : List String :=
  ["earliest", "latest"]

def timeFunctions : List String :=
  ["now"]

def functions : List String :=
  ["count", "sum", "avg", "mean", "min", "max", "dc", "distinct_count", "estdc", "values", "list",
   "first", "last", "median", "mode", "stdev", "stdevp", "var", "varp", "range", "perc",
   "percentile", "sumsq", "rate", "earliest_time", "latest_time", "sparkline", "round", "floor",
   "ceil", "ceiling", "abs", "exp", "ln", "log", "pow", "sqrt", "pi", "random", "if", "case",
   "coalesce", "nullif", "null", "isnull", "isnotnull", "isnum", "isstr", "isint", "validate",
   "len", "lower", "upper", "substr", "trim", "ltrim", "rtrim", "split", "urldecode", "md5",
   "sha1", "sha256", "tostring", "tonumber", "typeof", "printf", "mvcount", "mvindex", "mvjoin",
   "mvfilter", "mvappend", "mvdedup", "mvfind", "mvsort", "mvzip", "match", "cidrmatch",
   "searchmatch", "strftime", "strptime", "relative_time", "true", "false", "json_extract",
   "json_object"]

-- The units of relative times such as `-7d@d`.
def timeUnits : List String :=
  ["s", "sec", "secs", "second", "seconds", "m", "min", "mins", "minute", "minutes", "h", "hr",
   "hrs", "hour", "hours", "d", "day", "days", "w", "week", "weeks", "mon", "month", "months",
   "q", "qtr", "qtrs", "quarter", "quarters", "y", "yr", "yrs", "year", "years"]

-- Clause words are recognised in any mixture of case.
def clauseWords : List (String × Kind) :=
  [("as", .aliasing), ("by", .grouping), ("in", .within), ("like", .like),
   ("output", .output), ("outputnew", .outputNew)]

-- Boolean words are recognised in upper case only.
def booleanWords : List (String × Kind) := [("AND", .conj), ("OR", .disj), ("NOT", .neg)]

-- The kind of a word. A word that is not reserved is an ordinary name.
def classify (text : String) : Kind :=
  match booleanWords.lookup text with
  | some kind => kind
  | none =>
    match clauseWords.lookup text.toLower with
    | some kind => kind
    | none =>
      if text ∈ openingCommands then .openingCommand
      else if text ∈ commandsAndFunctions then .commandOrFunction
      else if text ∈ commands then .command
      else if text ∈ modifiersAndFunctions then .modifierOrFunction
      else if text ∈ timeFunctions then .timeOrFunction
      else if text ∈ functions then .function
      else .word

end SearchPipeline.Keyword
