import ProgPara.Network.Termination
import ProgPara.Network.Outcome
import ProgPara.Example.Proofs.Etapes
import ProgPara.Example.Proofs.Simulation
import ProgPara.Example.Proofs.Terminaison
import ProgPara.Example.Proofs.Issue
import ProgPara.Example.Proofs.Completion
import ProgPara.Example.Proofs.Independance
import ProgPara.Example.Proofs.Routage
import ProgPara.Example.Proofs.Bornes
import ProgPara.Matching.Board
import ProgPara.Matching.History
import ProgPara.Matching.Schedule
import ProgPara.Ob1.Comm
import ProgPara.Ob1.Job
import ProgPara.Ob1.Proofs.Channel
import ProgPara.Ob1.Proofs.Matching
import ProgPara.Ob1.Proofs.Order
import ProgPara.Network.Stuttering
import ProgPara.Ob1.Exec
import ProgPara.Ob1.Proofs.Progress
import ProgPara.Ob1.Proofs.Work
import ProgPara.Example.Proofs.Moteur
import ProgPara.Ob1.Proofs.Overtaking
import ProgPara.Ob1.Proofs.Pending
import ProgPara.Ob1.Proofs.Fairness
import ProgPara.Ob1.Proofs.Probe
