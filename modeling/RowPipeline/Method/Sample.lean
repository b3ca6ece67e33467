import RowPipeline.Method.Basic

namespace RowPipeline.Method

def first : Method where
  name := "first"
  call values := .ok (values.head?.getD .null)

def last : Method where
  name := "custom.last"
  call values := .ok (values.getLast?.getD .null)

-- Counts the values under the name of another method, which it replaces when it is registered.
def count : Method where
  name := "sum"
  call values := .ok (.int values.length)

def failing : Method where
  name := "fail"
  call _ := .error (.other "custom failure")

def samples : List Method :=
  [first, last, count, failing]

end RowPipeline.Method
