import PromptCalc.Main
import PromptCalc.Proofs.LastAnswer
import PromptCalc.Proofs.PromptFaults
import PromptCalc.Proofs.Leftovers
import PromptCalc.Proofs.ReadingExtent
import PromptCalc.Proofs.TokenPlaces
import PromptCalc.Proofs.Envelopes
import PromptCalc.Proofs.Consistency
import PromptCalc.Proofs.Safety
import PromptCalc.Proofs.Register
import PromptCalc.Proofs.ParallelReading
import PromptCalc.Proofs.Lossless
import PromptCalc.Proofs.PromptSteps
import PromptCalc.Proofs.Layout
import PromptCalc.Proofs.BracketFaults
import PromptCalc.Proofs.Conservation
import PromptCalc.Proofs.HigherPowers
import PromptCalc.Proofs.PhrasesUnderWay
import PromptCalc.Proofs.StackMachine
import PromptCalc.Proofs.ZeroDivision
import PromptCalc.Proofs.Spelling
import PromptCalc.Proofs.Grouping
import PromptCalc.Proofs.RoundTrip
import PromptCalc.Proofs.Resynchronisation
import PromptCalc.Proofs.ByteReading
import PromptCalc.Proofs.Listings
import PromptCalc.Proofs.Retyping
import PromptCalc.Proofs.OneShot
